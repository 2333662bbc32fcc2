import XmlHighlight.Xml.Markup

/-!
# Slots — the attributes of a start tag as bytes

The attributes of a tag that is known to be well formed are found by a lexer that looks at bytes
alone. It also finds the namespace declarations, which are attributes on the page.

* `Slot` — a name, a quote and a value, by their places;
* `slots` — every slot of a tag whose name ends at an offset.
-/

namespace XmlHighlight

open Xml (Extent isQuote)

/-- An attribute by its place: the name, the quote, and the value between the quotes. -/
structure Slot where
  name : Extent
  quote : UInt8
  value : Extent
  deriving DecidableEq, Repr

/-- White space among ASCII characters: space, tab, line feed, form feed and carriage return. -/
def isAsciiBlank (b : UInt8) : Bool := b == 32 || b == 9 || b == 10 || b == 12 || b == 13

/-- A byte that an attribute name may have: neither white space nor `=`, `/` or `>`. -/
def isSlotNameByte (b : UInt8) : Bool := !isAsciiBlank b && b != 61 && b != 47 && b != 62

namespace Slot

variable (s : Source)

/-- The offset after any white space. -/
def skipBlank (i : Nat) : Nat := s.skipWhile isAsciiBlank s.size i

theorem le_skipBlank (i : Nat) : i ≤ skipBlank s i := s.le_skipWhile _ _ _

/-- A slot ends past the offset at which it begins. -/
theorem lt_past_quote {i nameEnd eq before close : Nat} (hname : i ≤ nameEnd) (heq : nameEnd ≤ eq)
    (hbefore : eq + 1 ≤ before) (hclose : before + 1 ≤ close) : i < close + 1 := by omega

/-- A slot, with white space allowed around its `=`, whose name begins at offset `i`; and the offset
    after its closing quote. -/
def read? (i : Nat) : Option (Slot × { j : Nat // i < j }) :=
  let nameEnd := s.skipWhile isSlotNameByte s.size i
  let eq := skipBlank s nameEnd
  let before := skipBlank s (eq + 1)
  match s.byte? before with
  | none => none
  | some quote =>
    let close := s.skipWhile (· != quote) s.size (before + 1)
    if i < nameEnd && s.byte? eq == some 61 && isQuote quote && decide (close < s.size) then
      some (⟨⟨i, nameEnd⟩, quote, ⟨before + 1, close⟩⟩,
        ⟨close + 1, lt_past_quote (s.le_skipWhile _ _ _) (le_skipBlank s _) (le_skipBlank s _)
          (s.le_skipWhile _ _ _)⟩)
    else none

/-- The slots from offset `i` on, after the ones found before, latest first. Reading ends at `/` or
    `>`, or where no slot can be read. -/
def readAll (i : Nat) (found : List Slot) : List Slot :=
  let j := skipBlank s i
  have : i ≤ j := le_skipBlank s i
  if j < s.size then
    match read? s j with
    | some (slot, ⟨k, _⟩) => readAll k (slot :: found)
    | none => found.reverse
  else found.reverse
termination_by s.size - i

end Slot

/-- The attributes of a start tag whose name ends at offset `i`, in order. -/
def slots (s : Source) (i : Nat) : List Slot := Slot.readAll s i []

end XmlHighlight
