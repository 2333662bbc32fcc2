import XmlHighlight.Scan.Run
import XmlHighlight.Style.Buffer

/-!
# Highlighting at once

* `StyledBuffer.highlight` — resets the styling of a buffer and paints it by a scan of its own text.
-/

namespace XmlHighlight

namespace StyledBuffer

/-- Paints the spans of a hand-out, if there are any, and shows the progress. -/
def showFlush (b : StyledBuffer) (flush : Flush) : StyledBuffer :=
  (if flush.spans.isEmpty then b else b.applyBatch flush.spans).setProgress (some flush.progress)

/-- Styles a buffer afresh by a scan of its text that nobody interrupts, and tells how the scan
    ended. -/
def highlight (b : StyledBuffer) (settings : Settings) : StyledBuffer × Ending :=
  let b := b.resetStyling
  let report := (documentPlan b.source (.build b.source) settings).run fun _ => false
  (report.flushes.foldl showFlush b, report.ending)

end StyledBuffer

end XmlHighlight
