/-!
# Source text — a document addressed by byte offsets

Every reader of the library looks at a document through the same window: the UTF-8 bytes of a text,
addressed by offset.

* `Source` — the text; `Source.size` is its length in bytes;
* `Source.byte?`, `Source.char?` — the byte, or the character, at an offset;
* `Source.isBoundary`, `Source.snap` — offsets between characters, and the nearest one before an
  offset;
* `Source.slice?` — the text between two offsets;
* `Source.skipWhile`, `Source.skipChars` — the end of a run of bytes or characters;
* `Source.find?`, `Source.findLast?` — searches for a short text.
-/

namespace XmlHighlight

/-- A document, together with the bytes of its UTF-8 form. -/
structure Source where
  text : String
  utf8 : ByteArray
  utf8_eq : utf8 = text.toByteArray

namespace Source

/-- A text as a document. -/
def ofText (text : String) : Source := ⟨text, text.toByteArray, rfl⟩

variable (s : Source)

/-- The number of bytes. -/
def size : Nat := s.utf8.size

/-- The byte at offset `i`; there is none at or after the end. -/
def byte? (i : Nat) : Option UInt8 :=
  if h : i < s.utf8.size then some s.utf8[i] else none

/-- Offset `i` lies between two characters, or at an end of the document. -/
def isBoundary (i : Nat) : Bool := String.Pos.Raw.isValid s.text ⟨i⟩

/-- The text from offset `i` up to offset `j`, if both are in range, in order and between
    characters. -/
def slice? (i j : Nat) : Option String :=
  if i ≤ j && decide (j ≤ s.size) then String.fromUTF8? (s.utf8.extract i j) else none

/-- The text from `i` up to `j`, empty where there is no such text. -/
def slice (i j : Nat) : String := (s.slice? i j).getD ""

/-- The last offset between characters that is at most `i`; it is the end of the document if `i`
    lies beyond. -/
def snap : Nat → Nat
  | 0 => 0
  | i + 1 => if s.isBoundary (i + 1) then i + 1 else snap i

/-- The bytes `pattern` stand at offset `i`. -/
def matchesAt : List UInt8 → Nat → Bool
  | [], _ => true
  | b :: rest, i => s.byte? i == some b && matchesAt rest (i + 1)

/-- The text `word` stands at offset `i`, and ends no later than `stop`. -/
def startsWith (word : String) (stop i : Nat) : Bool :=
  decide (i + word.utf8ByteSize ≤ stop) && s.matchesAt word.toByteArray.toList i

/-- The byte at offset `i`, if that lies before `stop`. -/
def byteIn? (stop i : Nat) : Option UInt8 := if i < stop then s.byte? i else none

/-- The character whose first byte is at offset `i`, if that lies before `stop`. -/
def char? (stop i : Nat) : Option Char :=
  if i < stop then s.utf8.utf8DecodeChar? i else none

/-! ### Runs -/

/-- The first offset from `i` on, at most `stop`, whose byte does not satisfy `p`. -/
def skipWhile (p : UInt8 → Bool) (stop i : Nat) : Nat :=
  if i < stop then
    match s.byte? i with
    | some b => if p b then skipWhile p stop (i + 1) else i
    | none => i
  else i
termination_by stop - i

/-- Skipping goes forward. -/
theorem le_skipWhile (p : UInt8 → Bool) (stop i : Nat) : i ≤ s.skipWhile p stop i := by
  fun_induction skipWhile s p stop i <;> omega

/-- The first offset from `i` on, before `stop`, whose character does not satisfy `p`; the end of
    the text before `stop` if there is none. The offset of the character is known to `p`. -/
def skipChars (p : Nat → Char → Bool) (stop i : Nat) : Nat :=
  if i < stop then
    match s.char? stop i with
    | some c => if p i c then skipChars p stop (i + c.utf8Size) else i
    | none => i
  else i
termination_by stop - i
decreasing_by have := Char.utf8Size_pos c; omega

/-- Skipping characters goes forward. -/
theorem le_skipChars (p : Nat → Char → Bool) (stop i : Nat) : i ≤ s.skipChars p stop i := by
  fun_induction skipChars s p stop i <;> omega

/-! ### Searches -/

/-- The first offset from `i` on at which the bytes `pattern` stand. -/
def findBytes? (pattern : List UInt8) (i : Nat) : Option Nat :=
  if s.matchesAt pattern i then some i
  else if i < s.size then findBytes? pattern (i + 1)
  else none
termination_by s.size - i

/-- The first offset from `i` on at which `word` stands; none if `i` is not between characters. -/
def find? (word : String) (i : Nat) : Option Nat :=
  if s.isBoundary i then s.findBytes? word.toByteArray.toList i else none

/-- The last offset among `lo`, …, `lo + n` at which the bytes `pattern` stand. -/
def findLastBytes? (pattern : List UInt8) (lo : Nat) : Nat → Option Nat
  | 0 => if s.matchesAt pattern lo then some lo else none
  | n + 1 =>
    if s.matchesAt pattern (lo + n + 1) then some (lo + n + 1) else findLastBytes? pattern lo n

/-- The last place of `word` within the text from `lo` up to `stop`. -/
def findLast? (word : String) (lo stop : Nat) : Option Nat :=
  if lo + word.utf8ByteSize ≤ stop then
    s.findLastBytes? word.toByteArray.toList lo (stop - word.utf8ByteSize - lo)
  else none

end Source

end XmlHighlight
