import XmlHighlight.Xml.Name

/-!
# Markup — the pieces a document is written in

Content is read one piece at a time: a tag, a comment, a processing instruction, a section of
literal text, or a run of ordinary text. A piece knows where in the source it stands.

* `Xml.AttributeMarkup`, `Xml.StartTag`, `Xml.EndTag` — tags as written;
* `Xml.Markup` — the pieces of content;
* `Xml.readMarkup` — the piece that begins at an offset.
-/

namespace XmlHighlight.Xml

/-- A stretch of the source, from offset `start` up to offset `stop`. -/
structure Extent where
  start : Nat
  stop : Nat
  deriving DecidableEq, Repr

/-- An attribute as written: a name in its place, and a value between quotes. -/
structure AttributeMarkup where
  name : QName
  nameExtent : Extent
  value : Extent
  deriving DecidableEq, Repr

/-- How a start tag comes to its end. -/
inductive TagEnding where
  /-- With `>`: content follows, up to the end tag. -/
  | opened
  /-- With `/>`: the element is empty. -/
  | selfClosed
  /-- Not at all: the text ran out inside the tag, right after its name or an attribute. -/
  | cutOff
  /-- With a mistake that comes after the attributes read so far. -/
  | faulty (error : SyntaxError)
  deriving DecidableEq, Repr

/-- A start tag: `<`, a name, and attributes. -/
structure StartTag where
  name : QName
  nameExtent : Extent
  attributes : List AttributeMarkup
  ending : TagEnding
  extent : Extent
  deriving DecidableEq, Repr

/-- An end tag: `</`, a name, and `>`. -/
structure EndTag where
  name : QName
  nameExtent : Extent
  extent : Extent
  deriving DecidableEq, Repr

/-- A piece of content. -/
inductive Markup where
  | startTag (tag : StartTag)
  | endTag (tag : EndTag)
  | comment (extent : Extent)
  | instruction (extent : Extent)
  /-- A section of literal text with its markers. -/
  | cdata (extent : Extent)
  | text (extent : Extent)
  deriving DecidableEq, Repr

variable (s : Source)

/-! ### Comments, instructions and text -/

/-- The byte that a comment may not hold twice in a row. -/
def hyphen : UInt8 := 45

/-- A comment: `<!--`, text without two hyphens in a row, `-->`. -/
def readComment (stop i : Nat) : Except SyntaxError (Found i Extent) := do
  let ⟨j, _⟩ ← xmlCharsUntil s "-->" stop (i + 4)
  expectText s "-->" stop j
  if (s.findLast? "--" (i + 4) j).isSome || (i + 4 < j && s.byte? (j - 1) == some hyphen) then
    refuse .doubleHyphenInComment i
  else return ⟨⟨i, j + 3⟩, j + 3, by omega⟩

/-- A processing instruction: `<?`, a name, anything, `?>`. It may not look like the declaration
    that opens a document. -/
def readInstruction (stop i : Nat) : Except SyntaxError (Found i Extent) := do
  if s.startsWith "<?xml " stop i then refuse .unexpectedDeclaration i
  else
    let ⟨_, j, _⟩ ← readName s stop (i + 2)
    have := le_skipSpaces s stop j
    let ⟨k, _⟩ ← xmlCharsUntil s "?>" stop (skipSpaces s stop j)
    expectText s "?>" stop k
    return ⟨⟨i, k + 2⟩, k + 2, by omega⟩

/-- A section of literal text: `<![CDATA[`, anything, `]]>`. -/
def readCdata (stop i : Nat) : Except SyntaxError (Found i Extent) := do
  let ⟨j, _⟩ ← xmlCharsUntil s "]]>" stop (i + 9)
  expectText s "]]>" stop j
  return ⟨⟨i, j + 3⟩, j + 3, by omega⟩

/-- The byte that begins all markup. -/
def lessThan : UInt8 := 60

/-- A run of text up to the next `<`, which may not contain the end of a literal section. -/
def readText (stop i : Nat) : Except SyntaxError (Found i Extent) := do
  let ⟨j, _⟩ ← xmlCharsWhile s (fun _ c => c != '<') stop i
  if (s.findLast? "]]>" i j).isSome then refuse .cdataEndInText j
  else if h : i < j then return ⟨⟨i, j⟩, j, h⟩
  else refuse .unknownMarkup i

/-! ### Tags -/

/-- An end tag: `</`, a name, white space, `>`. -/
def readEndTag (stop i : Nat) : Except SyntaxError (Found i EndTag) := do
  let ⟨name, j, _⟩ ← readQName s stop (i + 2)
  have := le_skipSpaces s stop j
  let k := skipSpaces s stop j
  expectByte s 62 stop k
  return ⟨⟨name, ⟨i + 2, j⟩, ⟨i, k + 1⟩⟩, k + 1, by omega⟩

/-- White space, `=`, white space, and a quote; the answer is the quote and the offset after it. -/
def readEquals (stop i : Nat) : Except SyntaxError (Found i UInt8) := do
  have := le_skipSpaces s stop i
  let j := skipSpaces s stop i
  expectByte s 61 stop j
  have := le_skipSpaces s stop (j + 1)
  let k := skipSpaces s stop (j + 1)
  let quote ← expectQuote s stop k
  return ⟨quote, k + 1, by omega⟩

/-- An attribute: a name, `=`, and a value in quotes without `<`. -/
def readAttribute (stop i : Nat) : Except SyntaxError (Found i AttributeMarkup) := do
  let ⟨name, j, _⟩ ← readQName s stop i
  let ⟨quote, k, _⟩ ← readEquals s stop j
  have := s.le_skipWhile (fun b => b != quote && b != lessThan) stop k
  let e := s.skipWhile (fun b => b != quote && b != lessThan) stop k
  if stop ≤ e then refuse .endOfInput e
  else
    let _ ← xmlCharsWhile s (fun _ _ => true) e k
    expectByte s quote stop e
    return ⟨⟨name, ⟨i, j⟩, ⟨k, e⟩⟩, e + 1, by omega⟩

/-- The attributes of a start tag from offset `i` on, after the ones already read, latest first; the
    way in which the tag ends; and the offset at which reading stopped. -/
def readAttributes (stop i : Nat) (done : List AttributeMarkup) :
    List AttributeMarkup × TagEnding × Nat :=
  if i < stop then
    have := le_skipSpaces s stop i
    let j := skipSpaces s stop i
    match s.byteIn? stop j with
    | none => (done.reverse, .faulty ⟨.endOfInput, j⟩, j)
    -- A slash, which needs no white space before it; then `>` has to follow.
    | some 47 =>
      match expectByte s 62 stop (j + 1) with
      | .ok () => (done.reverse, .selfClosed, j + 2)
      | .error e => (done.reverse, .faulty e, j)
    -- A `>`.
    | some 62 => (done.reverse, .opened, j + 1)
    | some found =>
      if j = i then (done.reverse, .faulty ⟨.expected "a whitespace" found, j⟩, j)
      else
        match readAttribute s stop j with
        | .error e => (done.reverse, .faulty e, j)
        | .ok ⟨attr, k, _⟩ => readAttributes stop k (attr :: done)
  else (done.reverse, .cutOff, i)
termination_by stop - i

/-- Reading attributes goes forward. -/
theorem le_readAttributes (stop i : Nat) (done : List AttributeMarkup) :
    i ≤ (readAttributes s stop i done).2.2 := by
  fun_induction readAttributes s stop i done <;> grind

/-- A start tag: `<`, a name, attributes, and `>` or `/>`. Only a mistake in the name is refused at
    once; a later one is part of the tag, since what the tag declares is looked at before it. -/
def readStartTag (stop i : Nat) : Except SyntaxError (Found i StartTag) := do
  let ⟨name, j, _⟩ ← readQName s stop (i + 1)
  let read := readAttributes s stop j []
  have : j ≤ read.2.2 := le_readAttributes s stop j []
  return ⟨⟨name, ⟨i + 1, j⟩, read.1, read.2.1, ⟨i, read.2.2⟩⟩, read.2.2, by omega⟩

/-! ### A piece of content -/

/-- What the bytes at an offset announce. -/
inductive Opening where
  | comment
  | cdata
  | instruction
  | endTag
  | startTag
  | text
  /-- A declaration that content may not hold, or a `<` with nothing after it. -/
  | unknown
  deriving DecidableEq, Repr

/-- What begins at offset `i`. -/
def openingAt (stop i : Nat) : Opening :=
  if s.byteIn? stop i == some lessThan then
    match s.byteIn? stop (i + 1) with
    -- An exclamation mark, a question mark, and a slash.
    | some 33 =>
      if s.startsWith "<!--" stop i then .comment
      else if s.startsWith "<![CDATA[" stop i then .cdata
      else .unknown
    | some 63 => .instruction
    | some 47 => .endTag
    | some _ => .startTag
    | none => .unknown
  else .text

/-- Relabels what a reader found. -/
def Found.map {α β : Type} {i : Nat} (f : α → β) (r : Found i α) : Found i β :=
  ⟨f r.value, r.next, r.lt_next⟩

/-- The piece of content that begins at offset `i`. -/
def readMarkup (stop i : Nat) : Except SyntaxError (Found i Markup) :=
  match openingAt s stop i with
  | .comment => (readComment s stop i).map (Found.map .comment)
  | .cdata => (readCdata s stop i).map (Found.map .cdata)
  | .instruction => (readInstruction s stop i).map (Found.map .instruction)
  | .endTag => (readEndTag s stop i).map (Found.map .endTag)
  | .startTag => (readStartTag s stop i).map (Found.map .startTag)
  | .text => (readText s stop i).map (Found.map .text)
  | .unknown => refuse .unknownMarkup i

end XmlHighlight.Xml
