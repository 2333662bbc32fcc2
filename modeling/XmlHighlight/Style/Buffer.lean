import XmlHighlight.Style.Span

/-!
# Styled buffer — a text with a class for every byte

* `StyledBuffer` — the text, its styling, and what is shown around it;
* `StyledBuffer.insert`, `StyledBuffer.remove` — edits, which move the styling with the text;
* `StyledBuffer.replaceText` — a new text, by editing only what differs;
* `StyledBuffer.applyBatch`, `StyledBuffer.resetStyling` — painting;
* `StyledBuffer.lineCount` — lines as an editor counts them.
-/

namespace XmlHighlight

/-- A text, a class or none for each of its bytes, a status line, an optional progress indicator,
    and how often styling was reset and spans were applied. -/
structure StyledBuffer where
  text : String
  classes : Array (Option StyleClass)
  status : String
  progress : Option Progress
  resets : Nat
  batches : Nat
  deriving DecidableEq

namespace StyledBuffer

/-- A buffer without text. -/
def empty : StyledBuffer := ⟨"", #[], "", none, 0, 0⟩

/-- The text as a source. -/
def source (b : StyledBuffer) : Source := .ofText b.text

/-- The length of the text in bytes. -/
def size (b : StyledBuffer) : Nat := b.source.size

/-- Replaces the whole text. It is unstyled afterwards. -/
def setText (b : StyledBuffer) (text : String) : StyledBuffer :=
  { b with text := text, classes := Array.replicate text.utf8ByteSize none }

/-- A buffer with a text. -/
def ofText (text : String) : StyledBuffer := empty.setText text

/-! ### Edits -/

/-- Inserts a text, unstyled, at an offset. One beyond the end counts as the end, and one inside a
    character as its beginning. -/
def insert (b : StyledBuffer) (offset : Nat) (text : String) : StyledBuffer :=
  let i := b.source.snap (min offset b.size)
  { b with
    text := b.source.slice 0 i ++ text ++ b.source.slice i b.size
    classes := b.classes.extract 0 i ++ Array.replicate text.utf8ByteSize none
      ++ b.classes.extract i b.classes.size }

/-- Removes the text between two offsets, which are adjusted as for an insertion. Nothing is removed
    if they are not in order. -/
def remove (b : StyledBuffer) (first last : Nat) : StyledBuffer :=
  let i := b.source.snap (min first b.size)
  let j := max (b.source.snap (min last b.size)) i
  { b with
    text := b.source.slice 0 i ++ b.source.slice j b.size
    classes := b.classes.extract 0 i ++ b.classes.extract j b.classes.size }

/-! ### Replacement -/

/-- The first offset from `i` on, at most `n` bytes further, at which two sources differ. -/
def commonPrefix (old new : Source) : (n i : Nat) → Nat
  | 0, i => i
  | n + 1, i => if old.byte? i == new.byte? i then commonPrefix old new n (i + 1) else i

/-- The number of bytes that two sources have in common at their ends, if they have `k` in common
    there; at most `n` more. -/
def commonSuffix (old new : Source) : (n k : Nat) → Nat
  | 0, k => k
  | n + 1, k =>
    if old.byte? (old.size - (k + 1)) == new.byte? (new.size - (k + 1)) then
      commonSuffix old new n (k + 1)
    else k

/-- The last number, at most `n`, of bytes that make up whole characters at the end of a source. -/
def snapSuffix (s : Source) : Nat → Nat
  | 0 => 0
  | n + 1 => if s.isBoundary (s.size - (n + 1)) then n + 1 else snapSuffix s n

/-- Where two texts differ: from an offset in both, up to an offset in each. -/
structure Change where
  start : Nat
  oldStop : Nat
  newStop : Nat
  deriving DecidableEq, Repr

/-- Where two texts differ: all but the whole characters that they have in common at the beginning,
    and those after them at the end. -/
def changeBetween (old new : Source) : Change :=
  let least := min old.size new.size
  let start := old.snap (commonPrefix old new least 0)
  -- What is common at the end may not reach back into what is common at the beginning.
  let suffix := snapSuffix old (commonSuffix old new (least - start) 0)
  ⟨start, old.size - suffix, new.size - suffix⟩

/-- Replaces the text by another. What the two have in common at both ends keeps its styling. -/
def replaceText (b : StyledBuffer) (text : String) : StyledBuffer :=
  let new := Source.ofText text
  let change := changeBetween b.source new
  if change.start = change.oldStop ∧ change.start = change.newStop then b
  else
    (b.remove change.start change.oldStop).insert change.start
      (new.slice change.start change.newStop)

/-! ### Styling -/

/-- The class of a byte. -/
def classAt (b : StyledBuffer) (offset : Nat) : Option StyleClass := (b.classes[offset]?).join

/-- Gives `n` bytes from offset `i` on a class. -/
def paintFrom (style : StyleClass) :
    (n i : Nat) → Array (Option StyleClass) → Array (Option StyleClass)
  | 0, _, classes => classes
  | n + 1, i, classes => paintFrom style n (i + 1) (classes.setIfInBounds i (some style))

/-- Paints a span, as far as it lies inside the text. -/
def paint (classes : Array (Option StyleClass)) (span : Span) : Array (Option StyleClass) :=
  let stop := min span.stop classes.size
  let start := min span.start stop
  paintFrom span.style (stop - start) start classes

/-- Paints spans in order, so that later ones win. -/
def applyBatch (b : StyledBuffer) (spans : List Span) : StyledBuffer :=
  { b with classes := spans.foldl paint b.classes, batches := b.batches + 1 }

/-- Takes all styling away. -/
def resetStyling (b : StyledBuffer) : StyledBuffer :=
  { b with classes := Array.replicate b.classes.size none, resets := b.resets + 1 }

/-- Shows the progress indicator, or hides it. -/
def setProgress (b : StyledBuffer) (progress : Option Progress) : StyledBuffer :=
  { b with progress }

/-- Writes the status line. -/
def setStatus (b : StyledBuffer) (status : String) : StyledBuffer := { b with status }

/-! ### Lines -/

/-- A character that ends a line for an editor. -/
def isLineBreak (c : Char) : Bool :=
  let n := c.val
  (10 ≤ n && n ≤ 13) || n == 0x85 || n == 0x2028 || n == 0x2029

/-- The number of lines: one more than the line breaks, a carriage return and a line feed together
    being one break. -/
def lineCount (b : StyledBuffer) : Nat :=
  (b.text.toList.foldl (fun (count, afterReturn) c =>
    if isLineBreak c && !(afterReturn && c == '\n') then (count + 1, c == '\r')
    else (count, false)) (1, false)).1

end StyledBuffer

end XmlHighlight
