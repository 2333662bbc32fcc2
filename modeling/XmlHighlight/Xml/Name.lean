import XmlHighlight.Xml.Character
import XmlHighlight.Xml.SyntaxError

/-!
# Small readers and names

A reader looks at the source from some offset up to a limit, and either refuses with a mistake or
answers with what it found and where it stopped.

* `Xml.Found` — an answer, whose reader has moved on;
* `Xml.expectByte`, `Xml.expectSpaces`, `Xml.expectQuote`, `Xml.expectText` — something that has to
  stand at an offset;
* `Xml.xmlCharsWhile` — a run of characters that a document may contain;
* `Xml.QName`, `Xml.readName`, `Xml.readQName` — names, and names with a prefix.
-/

namespace XmlHighlight.Xml

/-- What a reader found from offset `i` on, and the offset at which it stopped. -/
structure Found (i : Nat) (α : Type) where
  value : α
  next : Nat
  lt_next : i < next

variable (s : Source)

/-- The reader refuses, pointing at offset `i`. -/
def refuse {α : Type} (fault : Fault) (i : Nat) : Except SyntaxError α := .error ⟨fault, i⟩

/-- The offset after any white space. -/
def skipSpaces (stop i : Nat) : Nat := s.skipWhile isSpace stop i

theorem le_skipSpaces (stop i : Nat) : i ≤ skipSpaces s stop i := s.le_skipWhile _ _ _

/-- The byte `b` has to stand at offset `i`. -/
def expectByte (b : UInt8) (stop i : Nat) : Except SyntaxError Unit :=
  match s.byteIn? stop i with
  | none => refuse .endOfInput i
  | some found => if found == b then .ok () else refuse (.expectedByte b found) i

/-- White space has to stand at offset `i`; the answer is the offset after it. -/
def expectSpaces (stop i : Nat) : Except SyntaxError { j : Nat // i < j } :=
  match s.byteIn? stop i with
  | none => refuse .endOfInput i
  | some found =>
    if isSpace found then .ok ⟨skipSpaces s stop (i + 1), le_skipSpaces s stop (i + 1)⟩
    else refuse (.expected "a whitespace" found) i

/-- A quote is `"` or `'`. -/
def isQuote (b : UInt8) : Bool := b == 34 || b == 39

/-- A quote has to stand at offset `i`; the answer is which one. -/
def expectQuote (stop i : Nat) : Except SyntaxError UInt8 :=
  match s.byteIn? stop i with
  | none => refuse .endOfInput i
  | some found => if isQuote found then .ok found else refuse (.expected "a quote" found) i

/-- The text `word` has to stand at offset `i`. -/
def expectText (word : String) (stop i : Nat) : Except SyntaxError Unit :=
  if s.startsWith word stop i then .ok () else refuse (.expectedText word) i

/-- The end of the run of characters from `i` on that satisfy `p`. All of them, and the character
    that ends the run, have to be ones that a document may contain. -/
def xmlCharsWhile (p : Nat → Char → Bool) (stop i : Nat) :
    Except SyntaxError { j : Nat // i ≤ j } :=
  let j := s.skipChars (fun k c => isXmlChar c && p k c) stop i
  match s.char? stop j with
  | some c => if isXmlChar c then .ok ⟨j, s.le_skipChars _ _ _⟩ else refuse (.notXmlChar c) j
  | none => .ok ⟨j, s.le_skipChars _ _ _⟩

/-- The end of the run of characters from `i` on that comes before the text `word`. -/
def xmlCharsUntil (word : String) (stop i : Nat) : Except SyntaxError { j : Nat // i ≤ j } :=
  xmlCharsWhile s (fun k _ => !s.startsWith word stop k) stop i

/-! ### Names -/

/-- The offset after a name. At the end of the text the name is empty. -/
def nameEnd (stop i : Nat) : Except SyntaxError { j : Nat // i ≤ j } :=
  match s.char? stop i with
  | none => .ok ⟨i, Nat.le_refl i⟩
  | some c =>
    if isNameStart c then
      .ok ⟨s.skipChars (fun _ => isNameChar) stop (i + c.utf8Size),
        Nat.le_trans (Nat.le_add_right _ _) (s.le_skipChars _ _ _)⟩
    else refuse .invalidName i

/-- A name that may not be empty. -/
def readName (stop i : Nat) : Except SyntaxError (Found i String) := do
  let ⟨j, _⟩ ← nameEnd s stop i
  if h : i < j then return ⟨s.slice i j, j, h⟩ else refuse .invalidName i

/-- A name with an optional prefix. An absent prefix is the empty one. -/
structure QName where
  qualifier : String
  localName : String
  deriving DecidableEq, Repr

/-- The name as messages show it. -/
def QName.text (q : QName) : String :=
  if q.qualifier.isEmpty then q.localName else q.qualifier ++ ":" ++ q.localName

/-- The byte between a prefix and a local name. -/
def colon : UInt8 := 58

/-- The end of a run of name characters other than a colon. -/
def ncNameEnd (stop i : Nat) : Nat :=
  s.skipChars (fun _ c => isNameChar c && c != ':') stop i

/-- The text from `i` up to `j` begins with a character that a name may begin with. -/
def startsName (i j : Nat) : Bool := (s.char? j i).any isNameStart

/-- A prefix, a colon and a local name, or a local name alone. A prefix that is empty counts as
    absent, and a second colon is a mistake. -/
def readQName (stop i : Nat) : Except SyntaxError (Found i QName) :=
  let j := ncNameEnd s stop i
  if s.byteIn? stop j == some colon then
    let k := ncNameEnd s stop (j + 1)
    if s.byteIn? stop k == some colon then refuse .invalidName i
    else if i < j && !startsName s i j then refuse .invalidName i
    else if h : startsName s (j + 1) k then
      .ok ⟨⟨s.slice i j, s.slice (j + 1) k⟩, k, by
        have hj : i ≤ j := s.le_skipChars _ _ _
        have hk : j + 1 ≤ k := s.le_skipChars _ _ _
        omega⟩
    else refuse .invalidName i
  else if h : startsName s i j then
    .ok ⟨⟨"", s.slice i j⟩, j, by
      have hj : i ≤ j := s.le_skipChars _ _ _
      rcases Nat.lt_or_eq_of_le hj with hlt | heq
      · exact hlt
      · simp [startsName, Source.char?, ← heq] at h⟩
  else refuse .invalidName i

end XmlHighlight.Xml
