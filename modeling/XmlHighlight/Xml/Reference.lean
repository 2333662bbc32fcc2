import XmlHighlight.Xml.Prolog

/-!
# References — characters and entities by number or name

* `Xml.Reference`, `Xml.readReference?` — what stands between `&` and `;`;
* `Xml.countEntity`, `Xml.recountEntities` — the guard against entities that refer to themselves.

An entity may refer to other entities, and in this way to itself. A reader therefore counts: at most
`maxDepth` entities may be open at a time, and of those inside another one at most `maxExpansions`
may be opened before the reader is back in the document itself.
-/

namespace XmlHighlight.Xml

/-- What a reference stands for. -/
inductive Reference where
  | character (c : Char)
  | entity (name : String)
  deriving DecidableEq, Repr

/-- The entities that every document has. -/
def builtinEntity? (name : String) : Option Char :=
  match name with
  | "quot" => some '"'
  | "amp" => some '&'
  | "apos" => some '\''
  | "lt" => some '<'
  | "gt" => some '>'
  | _ => none

/-- The value of a digit in base ten or sixteen. -/
def digitValue (b : UInt8) : Nat :=
  if b ≤ 57 then b.toNat - 48 else if b ≤ 70 then b.toNat - 55 else b.toNat - 87

/-- A decimal digit. -/
def isDigit (b : UInt8) : Bool := 48 ≤ b && b ≤ 57

/-- A hexadecimal digit of either case. -/
def isHexDigit (b : UInt8) : Bool := isDigit b || (65 ≤ b && b ≤ 70) || (97 ≤ b && b ≤ 102)

variable (s : Source)

/-- The number whose digits stand from `i` up to `j`. -/
def numberAt (base i j : Nat) : Nat :=
  (j - i).fold (fun k _ n => n * base + digitValue ((s.byte? (i + k)).getD 48)) 0

/-- The character of a given number, if documents may contain it. A number that fits in 32 bits but
    is no character gives the replacement character. -/
def charOfNumber? (n : Nat) : Option Char :=
  if n < UInt32.size then
    let c := if n.isValidChar then Char.ofNat n else Char.ofNat 0xFFFD
    if isXmlChar c then some c else none
  else none

/-- The reference that begins with the `&` at offset `i`: `&#`, decimal digits, `;`, or `&#x`,
    hexadecimal digits, `;`, or `&`, a name, `;`. -/
def readReference? (stop i : Nat) : Option (Found i Reference) :=
  if s.byteIn? stop (i + 1) == some 35 then
    if s.byteIn? stop (i + 2) == some 120 then number isHexDigit 16 (i + 3) (by omega)
    else number isDigit 10 (i + 2) (by omega)
  else
    match readName s stop (i + 1) with
    | .error _ => none
    | .ok ⟨name, j, _⟩ =>
      if s.byteIn? stop j == some semicolon then
        some ⟨(builtinEntity? name).elim (.entity name) .character, j + 1, by omega⟩
      else none
where
  /-- The byte that ends a reference. -/
  semicolon : UInt8 := 59
  /-- The digits of a number, and the end of the reference. -/
  number (isDigit : UInt8 → Bool) (base j : Nat) (h : i < j) : Option (Found i Reference) :=
    have := s.le_skipWhile isDigit stop j
    let k := s.skipWhile isDigit stop j
    if j < k && s.byteIn? stop k == some semicolon then
      (charOfNumber? (numberAt s base j k)).map fun c => ⟨.character c, k + 1, by omega⟩
    else none

/-! ### Nesting

The depth of a reader is given by the room that it has left: how many more entities may be opened
inside the one it is in. -/

/-- How many entities may be open at a time. -/
def maxDepth : Nat := 10

/-- How many entities may be opened inside others before reading is back in the document itself. -/
def maxExpansions : Nat := 255

/-- A reader with so much room left is inside an entity, not in the document itself. -/
def isInside (room : Nat) : Bool := decide (room < maxDepth)

/-- The count of entities opened inside others when a reader with so much room left opens one more,
    whose reference ends at offset `i`. -/
def countEntity (room expansions i : Nat) : Except SyntaxError Nat :=
  if isInside room then
    if expansions < maxExpansions then .ok (expansions + 1) else refuse .entityLoop i
  else .ok expansions

/-- The count after an entity has been read to its end: in the document itself it starts afresh. -/
def recountEntities (room expansions : Nat) : Nat := if isInside room then expansions else 0

/-- The entity of a given name. The first declaration counts. -/
def findEntity? (entities : Array Entity) (name : String) : Option Entity :=
  entities.find? (·.name == name)

end XmlHighlight.Xml
