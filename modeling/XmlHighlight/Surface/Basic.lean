import XmlHighlight.Digit
import XmlHighlight.Style.Buffer

/-!
# Surface — what the user sees of a document

The surface is a styled buffer with a progress indicator, which is shown or hidden. Whoever
highlights the document does not touch it, but sends requests.

* `Request`, `Event` — what is asked for, and what has been done;
* `Surface.handle` — what a request does to a surface.
-/

namespace XmlHighlight

/-- What can be asked of a surface. -/
inductive Request where
  /-- The text of the document is wanted. -/
  | readText
  | resetStyling
  | applyBatch (spans : List Span)
  | showProgress (progress : Progress)
  | notify (message : String)
  deriving DecidableEq, Repr

/-- Whoever sends the request waits until it has been handled. -/
def Request.isBlocking : Request → Bool
  | readText => true
  | resetStyling => true
  | applyBatch _ => true
  | showProgress _ => false
  | notify _ => false

/-- What has been done for a request. -/
inductive Event where
  | textRead
  | stylingReset
  /-- So many spans have been painted. -/
  | batchApplied (count : Nat)
  | progressShown (progress : Progress)
  | notified (message : String)
  deriving DecidableEq, Repr

namespace Event

/-- The whole document has been highlighted. -/
def isComplete : Event → Bool
  | progressShown p => p.isComplete
  | _ => false

/-- A pass over the document has ended, or something has been made known. -/
def endsPass : Event → Bool
  | notified _ => true
  | e => e.isComplete

end Event

/-- What the user sees of a document: the buffer, and whether the progress indicator is shown. -/
structure Surface where
  buffer : StyledBuffer
  indicatorShown : Bool
  deriving DecidableEq

namespace Surface

/-- The status line while a document is being highlighted. -/
def busyStatus : String := "Formatting..."

/-- The status line after a document of so many lines has been highlighted. -/
def doneStatus (lines : Nat) : String := "Done formatting. " ++ decimal lines ++ " lines"

/-- A surface that nothing has been asked of. -/
def ofBuffer (buffer : StyledBuffer) : Surface := ⟨buffer, false⟩

/-- Changes the buffer only. -/
def mapBuffer (s : Surface) (f : StyledBuffer → StyledBuffer) : Surface :=
  { s with buffer := f s.buffer }

/-- Hides the indicator. -/
def hideIndicator (s : Surface) : Surface := ⟨s.buffer.setProgress none, false⟩

/-- Shows progress. The indicator appears with the first report, which writes the status line, and
    disappears when everything has been covered. Then the status line says so, unless it has been
    changed. -/
def showProgress (s : Surface) (p : Progress) : Surface :=
  if p.isComplete then
    let s := s.hideIndicator
    if s.buffer.status = busyStatus then
      s.mapBuffer fun b => b.setStatus (doneStatus b.lineCount)
    else s
  else
    let b := if s.indicatorShown then s.buffer else s.buffer.setStatus busyStatus
    ⟨b.setProgress (some p), true⟩

/-- Handles a request. -/
def handle (s : Surface) : Request → Surface × Event
  | .readText => (s, .textRead)
  | .resetStyling => (s.mapBuffer .resetStyling, .stylingReset)
  | .applyBatch spans => (s.mapBuffer (·.applyBatch spans), .batchApplied spans.length)
  | .showProgress p => (s.showProgress p, .progressShown p)
  | .notify message => (s.hideIndicator.mapBuffer (·.setStatus message), .notified message)

end Surface

end XmlHighlight
