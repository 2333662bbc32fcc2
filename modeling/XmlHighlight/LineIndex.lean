import XmlHighlight.Digit
import XmlHighlight.Position

/-!
# Line index — where the lines of a text begin

* `LineIndex.build` — the table of line starts, made in one pass;
* `LineIndex.offsetOfLine`, `LineIndex.offsetAt` — the offset of a line, and of a position;
* `LineIndexError` — a line that the text does not have, or a place past its end.
-/

namespace XmlHighlight

/-- A sum of offsets. Offsets are 64-bit words, so a sum that does not fit keeps its low 64 bits. -/
def offsetSum (i j : Nat) : Nat := (i + j) % UInt64.size

/-- Why a position has no offset. -/
inductive LineIndexError where
  /-- There is no such line. -/
  | outOfRange (line lineCount : Nat)
  /-- The line exists, but the column leads past the end of the text. -/
  | pastEnd (line column size : Nat)
  deriving DecidableEq, Repr

/-- What the user is told. -/
def LineIndexError.message : LineIndexError → String
  | outOfRange line count =>
    "line " ++ decimal line ++ " is outside the document (" ++ decimal count ++ " lines)"
  | pastEnd line column size =>
    "position " ++ decimal line ++ ":" ++ decimal column
      ++ " lies past the end of the document (" ++ decimal size ++ " bytes)"

/-- The offsets at which the lines of a text begin, and the length of the text. -/
structure LineIndex where
  starts : Array Nat
  size : Nat
  deriving DecidableEq

namespace LineIndex

/-- Only a newline byte ends a line, so the text after the last newline, even if empty, is a
    line. -/
def build (s : Source) : LineIndex where
  starts := s.size.fold
    (fun i _ starts => if s.byte? i == some newline then starts.push (i + 1) else starts) #[0]
  size := s.size

/-- The number of lines. -/
def lineCount (ix : LineIndex) : Nat := ix.starts.size

/-- The offset at which a line, counted from one, begins. -/
def offsetOfLine (ix : LineIndex) (line : Nat) : Except LineIndexError Nat :=
  match line with
  | 0 => .error (.outOfRange line ix.lineCount)
  | i + 1 =>
    match ix.starts[i]? with
    | some start => .ok start
    | none => .error (.outOfRange line ix.lineCount)

/-- The offset of a position. The line is checked before the column, and the column may lead into
    later lines but not past the end of the text. -/
def offsetAt (ix : LineIndex) (pos : TextPos) : Except LineIndexError Nat :=
  match ix.offsetOfLine pos.line with
  | .error e => .error e
  | .ok start =>
    let offset := offsetSum start (pos.column - 1)
    if pos.column = 0 ∨ ix.size < offset then .error (.pastEnd pos.line pos.column ix.size)
    else .ok offset

end LineIndex

end XmlHighlight
