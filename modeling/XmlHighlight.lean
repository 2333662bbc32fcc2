import XmlHighlight.Main
import XmlHighlight.Style.Highlight
import XmlHighlight.Config.Saving
import XmlHighlight.Proofs.Batches
import XmlHighlight.Proofs.Bytes
import XmlHighlight.Proofs.Placement
import XmlHighlight.Proofs.Characters
import XmlHighlight.Proofs.Layout
import XmlHighlight.Proofs.Positions
import XmlHighlight.Proofs.Traversal
import XmlHighlight.Proofs.Slots
import XmlHighlight.Proofs.SpanOrder
import XmlHighlight.Proofs.TagTokens
import XmlHighlight.Proofs.DocumentTokens
import XmlHighlight.Proofs.ValueSize
import XmlHighlight.Proofs.Construction
import XmlHighlight.Proofs.DocumentLayout
import XmlHighlight.Proofs.Interleaving
import XmlHighlight.Proofs.Convergence
import XmlHighlight.Proofs.Runs
import XmlHighlight.Proofs.Progress
import XmlHighlight.Proofs.Preemption
import XmlHighlight.Proofs.PassRequests
import XmlHighlight.Proofs.PassRuns
import XmlHighlight.Proofs.OneShot
import XmlHighlight.Proofs.ScanFailures
import XmlHighlight.Proofs.ValueSpans
import XmlHighlight.Proofs.Alignment
import XmlHighlight.Proofs.StepTokens
import XmlHighlight.Proofs.WrittenNames
import XmlHighlight.Proofs.PrologRuns
import XmlHighlight.Proofs.MarkupRuns
import XmlHighlight.Proofs.ElementTags
import XmlHighlight.Proofs.TagsAsWritten
import XmlHighlight.Proofs.SourceOrder
import XmlHighlight.Proofs.OrderKept
import XmlHighlight.Proofs.SingleRoot
import XmlHighlight.Proofs.Strays
import XmlHighlight.Proofs.TokenOrder
import XmlHighlight.Proofs.Nesting
import XmlHighlight.Proofs.PositionTrips
import XmlHighlight.Proofs.Indicator
import XmlHighlight.Proofs.SurfaceCalls
import XmlHighlight.Proofs.Disconnection
import XmlHighlight.Proofs.Renderers
import XmlHighlight.Proofs.StyledRuns
import XmlHighlight.Proofs.WholeCharacters
import XmlHighlight.Proofs.Terminal
import XmlHighlight.Proofs.FlushCount
import XmlHighlight.Proofs.Replacement
import XmlHighlight.Proofs.PlainScalars
import XmlHighlight.Proofs.QuotedScalars
import XmlHighlight.Proofs.BlockScalars
import XmlHighlight.Proofs.WrittenValues
import XmlHighlight.Proofs.EntryTokens
import XmlHighlight.Proofs.SavedSettings
import XmlHighlight.Proofs.LineOffsets
import XmlHighlight.Proofs.Painting
import XmlHighlight.Proofs.CarefulScan
import XmlHighlight.Proofs.HexColors
import XmlHighlight.Proofs.AnyTokens
import XmlHighlight.Proofs.SlotLayout
import XmlHighlight.Proofs.Visits
