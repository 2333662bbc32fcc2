import XmlHighlight.Xml.Markup

/-!
# Prolog — what may precede the root element

A document may open with a declaration and a document type, with comments and processing
instructions around them. Of the document type only the entities matter later on.

* `Xml.readDeclaration` — `<?xml version="1.0"?>`;
* `Xml.readMisc` — comments, processing instructions and white space;
* `Xml.Entity`, `Xml.readEntity` — an entity and its declaration;
* `Xml.readDoctype` — a document type with its internal subset.
-/

namespace XmlHighlight.Xml

variable (s : Source)

/-! ### The declaration -/

/-- White space between the parts of the declaration. It may be left out before `?>` and at the end
    of the text. -/
def declarationSpaces (stop i : Nat) : Except SyntaxError Nat :=
  match s.byteIn? stop i with
  | none => .ok i
  | some found =>
    if isSpace found then .ok (skipSpaces s stop i)
    else if s.startsWith "?>" stop i then .ok i
    else refuse (.expected "a whitespace" found) i

/-- One part of the declaration, such as `version="1.0"`; the answer is the offset after it. -/
def declarationPart (stop i : Nat) : Except SyntaxError Nat := do
  let ⟨_, j, _⟩ ← readQName s stop i
  let ⟨quote, k, _⟩ ← readEquals s stop j
  let ⟨e, _⟩ ← xmlCharsWhile s (fun _ c => c != Char.ofNat quote.toNat && c != '<') stop k
  expectByte s quote stop e
  return e + 1

/-- The declaration that may open a document: a version, then an encoding and a standalone part if
    they are there. The answer is the offset after it. -/
def readDeclaration (stop i : Nat) : Except SyntaxError Nat := do
  let j ← declarationSpaces s stop (i + 5)
  expectText s "version" stop j
  let j ← declarationPart s stop j
  let j ← declarationSpaces s stop j
  let j ←
    if s.startsWith "encoding" stop j then do
      let j ← declarationPart s stop j
      declarationSpaces s stop j
    else pure j
  let j ← if s.startsWith "standalone" stop j then declarationPart s stop j else pure j
  let j := skipSpaces s stop j
  expectText s "?>" stop j
  return j + 2

/-! ### Comments and processing instructions between other things -/

/-- Comments, processing instructions and white space from offset `i` on. The answer is what was
    found, after the pieces found before, and the offset at which something else stands. -/
def readMisc (stop i : Nat) (found : Array Markup) : Except SyntaxError (Array Markup × Nat) :=
  if i < stop then
    have := le_skipSpaces s stop i
    let j := skipSpaces s stop i
    if s.startsWith "<!--" stop j then
      match readComment s stop j with
      | .ok ⟨extent, k, _⟩ => readMisc stop k (found.push (.comment extent))
      | .error e => .error e
    else if s.startsWith "<?" stop j then
      match readInstruction s stop j with
      | .ok ⟨extent, k, _⟩ => readMisc stop k (found.push (.instruction extent))
      | .error e => .error e
    else .ok (found, j)
  else .ok (found, i)
termination_by stop - i

/-! ### The document type -/

/-- An entity, and the place in the source at which its replacement text stands. -/
structure Entity where
  name : String
  value : Extent
  deriving DecidableEq, Repr

/-- A quoted literal; the answer is what stands between the quotes. -/
def readLiteral (stop i : Nat) : Except SyntaxError (Found i Extent) := do
  let quote ← expectQuote s stop i
  have := s.le_skipWhile (· != quote) stop (i + 1)
  let e := s.skipWhile (· != quote) stop (i + 1)
  expectByte s quote stop e
  return ⟨⟨i + 1, e⟩, e + 1, by omega⟩

/-- A reference to an external document, which is not followed: `SYSTEM` and a literal, or `PUBLIC`
    and two. The answer is the offset after it, if there is one. -/
def readExternalId (stop i : Nat) : Except SyntaxError (Option { j : Nat // i < j }) := do
  let isPublic := s.startsWith "PUBLIC" stop i
  if isPublic || s.startsWith "SYSTEM" stop i then
    let ⟨j, _⟩ ← expectSpaces s stop (i + 6)
    let ⟨_, k, _⟩ ← readLiteral s stop j
    if isPublic then
      let ⟨j, _⟩ ← expectSpaces s stop k
      let ⟨_, k, _⟩ ← readLiteral s stop j
      return some ⟨k, by omega⟩
    else return some ⟨k, by omega⟩
  else return none

/-- What an entity declaration defines its entity to be, if that is a text of this document, and the
    offset after it. A general entity may name a notation for data that is not text. -/
def readEntityValue (isGeneral : Bool) (stop i : Nat) :
    Except SyntaxError (Found i (Option Extent)) := do
  match s.byteIn? stop i with
  | none => refuse .endOfInput i
  | some found =>
    if isQuote found then
      let ⟨value, j, h⟩ ← readLiteral s stop i
      return ⟨some value, j, h⟩
    -- The first letter of `SYSTEM` or `PUBLIC`.
    else if found == 83 || found == 80 then
      match ← readExternalId s stop i with
      | none => refuse .invalidExternalId i
      | some ⟨j, h⟩ =>
        have := le_skipSpaces s stop j
        let k := skipSpaces s stop j
        if isGeneral && s.startsWith "NDATA" stop k then
          let ⟨l, _⟩ ← expectSpaces s stop (k + 5)
          let ⟨m, _⟩ ← nameEnd s stop l
          return ⟨none, m, by omega⟩
        else return ⟨none, j, h⟩
    else refuse (.expected "a quote, SYSTEM or PUBLIC" found) i

/-- An entity declaration: `<!ENTITY`, a sign if the entity is for the document type itself, a name,
    a value, `>`. -/
def readEntity (stop i : Nat) : Except SyntaxError (Found i (Option Entity)) := do
  let ⟨j, _⟩ ← expectSpaces s stop (i + 8)
  -- A percent sign marks an entity for the document type itself.
  let isGeneral := s.byteIn? stop j != some 37
  let ⟨j, _⟩ ← if isGeneral then pure ⟨j, ‹_›⟩ else do
    let ⟨k, _⟩ ← expectSpaces s stop (j + 1)
    pure (⟨k, by omega⟩ : { k : Nat // i + 8 < k })
  let ⟨name, j, _⟩ ← readName s stop j
  let ⟨j, _⟩ ← expectSpaces s stop j
  let ⟨value, j, _⟩ ← readEntityValue s isGeneral stop j
  have := le_skipSpaces s stop j
  let j := skipSpaces s stop j
  expectByte s 62 stop j
  return ⟨value.map (⟨name, ·⟩), j + 1, by omega⟩

/-- What has been read of a document up to its root element. -/
structure Prolog where
  pieces : Array Markup
  entities : Array Entity
  deriving DecidableEq

/-- The internal subset of a document type, from offset `i` on, up to `]` and `>`. The text may also
    end inside it. The document type begins at offset `start`. -/
def readSubset (start stop i : Nat) (done : Prolog) : Except SyntaxError (Prolog × Nat) :=
  if i < stop then
    have := le_skipSpaces s stop i
    let j := skipSpaces s stop i
    if s.startsWith "<!ENTITY" stop j then
      match readEntity s stop j with
      | .ok ⟨entity, k, _⟩ =>
        readSubset start stop k { done with entities := done.entities ++ entity.toArray }
      | .error e => .error e
    else if s.startsWith "<!--" stop j then
      match readComment s stop j with
      | .ok ⟨extent, k, _⟩ =>
        readSubset start stop k { done with pieces := done.pieces.push (.comment extent) }
      | .error e => .error e
    else if s.startsWith "<?" stop j then
      match readInstruction s stop j with
      | .ok ⟨extent, k, _⟩ =>
        readSubset start stop k { done with pieces := done.pieces.push (.instruction extent) }
      | .error e => .error e
    else if s.startsWith "]" stop j then
      let k := skipSpaces s stop (j + 1)
      match expectClose k with
      | .ok () => .ok (done, k + 1)
      | .error e => .error e
    else if s.startsWith "<!ELEMENT" stop j || s.startsWith "<!ATTLIST" stop j
        || s.startsWith "<!NOTATION" stop j then
      have := s.le_skipWhile (· != 62) stop (skipSpaces s stop i)
      let k := s.skipWhile (· != 62) stop j
      if k < stop then readSubset start stop (k + 1) done else refuse .unknownMarkup start
    else refuse .unknownMarkup j
  else .ok (done, i)
termination_by stop - i
where
  /-- The `>` that ends a document type has to stand at offset `k`. -/
  expectClose (k : Nat) : Except SyntaxError Unit :=
    match s.byteIn? stop k with
    | none => refuse .endOfInput k
    | some found => if found == 62 then .ok () else refuse (.expected "'>'" found) k

/-- A document type: `<!DOCTYPE`, a name, a reference to an external document, which is not
    followed, and an internal subset in brackets. -/
def readDoctype (stop i : Nat) (done : Prolog) : Except SyntaxError (Prolog × Nat) := do
  let ⟨j, _⟩ ← expectSpaces s stop (i + 9)
  let ⟨j, _⟩ ← nameEnd s stop j
  let j := skipSpaces s stop j
  let j := match ← readExternalId s stop j with
    | some ⟨k, _⟩ => k
    | none => j
  let j := skipSpaces s stop j
  match s.byteIn? stop j with
  | none => refuse .endOfInput j
  -- An opening bracket, or the `>` of a document type that has no internal subset.
  | some 91 => readSubset s i stop (j + 1) done
  | some 62 => return (done, j + 1)
  | some found => refuse (.expected "'[' or '>'" found) j

/-! ### All of it -/

/-- What precedes the root element: a byte order mark, a declaration, a document type, and comments
    and processing instructions. The answer ends where the root element should begin. -/
def readProlog (stop : Nat) : Except SyntaxError (Prolog × Nat) := do
  let i := if s.startsWith "\uFEFF" stop 0 then 3 else 0
  let i ← if s.startsWith "<?xml " stop i then readDeclaration s stop i else pure i
  let (pieces, i) ← readMisc s stop i #[]
  let i := skipSpaces s stop i
  if s.startsWith "<!DOCTYPE" stop i then
    let (prolog, i) ← readDoctype s stop i ⟨pieces, #[]⟩
    let (pieces, i) ← readMisc s stop i prolog.pieces
    return (⟨pieces, prolog.entities⟩, skipSpaces s stop i)
  else return (⟨pieces, #[]⟩, i)

end XmlHighlight.Xml
