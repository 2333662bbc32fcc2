import XmlHighlight.Xml.Reference

/-!
# Attribute values — what an attribute means

The value of an attribute is its text between the quotes with references replaced and with every
white space character turned into a space. A character given by number or by a builtin name is taken
as it is, unless it comes out of an entity.

* `Xml.spaced` — white space as a space;
* `Xml.normalizeValue` — the value of a stretch of the source.
-/

namespace XmlHighlight.Xml

/-- A character of a value: white space of any kind is a space. -/
def spaced (c : Char) : Char := if c == '\n' || c == '\r' || c == '\t' then ' ' else c

/-- A value as far as it has been read, and the entities opened inside others on the way. -/
structure PartialValue where
  text : String
  expansions : Nat
  deriving DecidableEq

/-- The value with one more character. -/
def PartialValue.push (v : PartialValue) (c : Char) : PartialValue :=
  { v with text := v.text.push c }

variable (s : Source) (entities : Array Entity)

/-- Reads a value from offset `i` up to `stop`. What an entity contributes is left to `expand`,
    which is told the end of the reference and the place of the replacement text. -/
def normalizeRun (inside : Bool)
    (expand : Nat → Extent → PartialValue → Except SyntaxError PartialValue)
    (stop i : Nat) (v : PartialValue) : Except SyntaxError PartialValue :=
  if i < stop then
    match s.char? stop i with
    | none => .ok v
    | some '&' =>
      match readReference? s stop i with
      | none => refuse .malformedReference i
      | some ⟨.character c, j, _⟩ =>
        if inside then
          if c == '<' then refuse .lessThanInValue i
          else normalizeRun inside expand stop j (v.push (spaced c))
        else normalizeRun inside expand stop j (v.push c)
      | some ⟨.entity name, j, _⟩ =>
        match findEntity? entities name with
        | none => refuse (.unknownEntity name) i
        | some entity =>
          match expand j entity.value v with
          | .ok v => normalizeRun inside expand stop j v
          | .error e => .error e
    | some c =>
      -- A line break of two characters is one space, so the first of them is passed over.
      if c == '\r' && s.byteIn? stop (i + 1) == some newline then
        normalizeRun inside expand stop (i + 1) v
      else
        have := Char.utf8Size_pos c
        normalizeRun inside expand stop (i + c.utf8Size) (v.push (spaced c))
  else .ok v
termination_by stop - i

/-- Reads a value where so many more entities may be opened. -/
def normalizeValue : (room : Nat) → Extent → PartialValue → Except SyntaxError PartialValue
  | 0, extent, v =>
    normalizeRun s entities (isInside 0) (fun i _ _ => refuse .entityLoop i)
      extent.stop extent.start v
  | room + 1, extent, v =>
    normalizeRun s entities (isInside (room + 1))
      (fun i inner v => do
        let expansions ← countEntity (room + 1) v.expansions i
        let v ← normalizeValue room inner { v with expansions }
        return { v with expansions := recountEntities (room + 1) v.expansions })
      extent.stop extent.start v

end XmlHighlight.Xml
