import XmlHighlight.Digit
import XmlHighlight.Style.Span
import XmlHighlight.Token.Basic

/-!
# Token spans — what a single token paints

A token says where its name stands; the delimiters around it are searched for in the text. The text
need not agree with the token, and then the search fails, with some of the spans of the token found
already.

* `ScanError` — why a scan fails;
* `Painting` — a computation that finds spans, and may fail on the way;
* `valueLength` — how many bytes of the text an attribute value takes up;
* `tokenSpans` — the spans of a token, in order.
-/

namespace XmlHighlight

/-- Something that should stand near an offset. -/
inductive Landmark where
  | tagStart
  | endTagStart
  | tagEnd
  | equals
  | openingQuote
  deriving DecidableEq, Repr

/-- A landmark in words. -/
def Landmark.text : Landmark → String
  | tagStart => "'<'"
  | endTagStart => "'</'"
  | tagEnd => "'>'"
  | equals => "'='"
  | openingQuote => "opening quote"

/-- Why a scan fails. -/
inductive ScanError where
  /-- The document is not well formed. -/
  | malformed (message : String)
  /-- A token has a position that the text does not have. -/
  | noOffset (error : LineIndexError)
  /-- A landmark is not where a token says it should be. -/
  | misaligned (landmark : Landmark) (offset : Nat)
  deriving DecidableEq, Repr

/-- What the user is told. -/
def ScanError.message : ScanError → String
  | malformed message => message
  | noOffset error => error.message
  | misaligned landmark offset =>
    "expected " ++ landmark.text ++ " at or after offset " ++ decimal offset

/-! ### Painting -/

/-- What a computation has found: spans, in order, and a value in the end if it does not fail. The
    spans found before a failure are kept. -/
structure Painting (α : Type) where
  spans : List Span
  result : Except ScanError α

namespace Painting

variable {α β : Type}

/-- A value, and no spans. -/
def pure (a : α) : Painting α := ⟨[], .ok a⟩

/-- Goes on with the value that has been found. The spans of both come one after the other. -/
def bind (p : Painting α) (f : α → Painting β) : Painting β :=
  match p.result with
  | .ok a => ⟨p.spans ++ (f a).spans, (f a).result⟩
  | .error e => ⟨p.spans, .error e⟩

instance : Monad Painting where
  pure := Painting.pure
  bind := Painting.bind

/-- A value that may be missing, and no spans. -/
def ofExcept (r : Except ScanError α) : Painting α := ⟨[], r⟩

/-- Fails. -/
def fail (e : ScanError) : Painting α := ⟨[], .error e⟩

end Painting

/-- A span, or nothing if it would be empty. -/
def span (start length : Nat) (style : StyleClass) : List Span :=
  if 0 < length then [⟨start, length, style⟩] else []

/-- Paints a span, or nothing if it would be empty. -/
def paint (start length : Nat) (style : StyleClass) : Painting Unit :=
  ⟨span start length style, .ok ()⟩

variable (s : Source) (index : LineIndex)

/-- The offset of a position. -/
def offsetOf (pos : TextPos) : Painting Nat := .ofExcept ((index.offsetAt pos).mapError .noOffset)

/-- The first offset from `i` on at which a character stands that marks a landmark. -/
def seek (c : Char) (landmark : Landmark) (i : Nat) : Painting Nat :=
  match s.find? (String.singleton c) i with
  | some j => pure j
  | none => .fail (.misaligned landmark i)

/-! ### Attribute values -/

/-- A character of a value between quotes as it is usually written. -/
def escapedChar (quote c : Char) : String :=
  match c with
  | '&' => "&amp;"
  | '<' => "&lt;"
  | '"' => if quote = '"' then "&quot;" else "\""
  | '\'' => if quote = '\'' then "&apos;" else "'"
  | c => String.singleton c

/-- A value between quotes as it is usually written. -/
def escapedValue (value : String) (quote : Char) : String :=
  value.toList.foldl (fun text c => text ++ escapedChar quote c) ""

/-- The text `value` stands at offset `i`, and a quote follows it. -/
def isQuotedAt (value : String) (quote : Char) (i : Nat) : Bool :=
  s.matchesAt value.toByteArray.toList i
    && s.matchesAt (String.singleton quote).toByteArray.toList (i + value.utf8ByteSize)

/-- The number of bytes from offset `i` on that the value of an attribute takes up in the text.
    References make it differ from the size of the value: the value may stand there as it is, or in
    its usual written form, and otherwise it ends at the next quote. -/
def valueLength (i : Nat) (value : String) (quote : Char) : Nat :=
  if s.isBoundary i then
    if isQuotedAt s value quote i then value.utf8ByteSize
    else
      let escaped := escapedValue value quote
      if isQuotedAt s escaped quote i then escaped.utf8ByteSize
      else
        match s.find? (String.singleton quote) i with
        | some j => j - i
        | none => min value.utf8ByteSize (s.size - i)
  else 0

/-- The spans of an attribute, and the offset after its closing quote. The value begins one byte
    after the opening quote. -/
def attributeSpans (attr : TagAttribute) : Painting Nat := do
  let i ← offsetOf index attr.pos
  let nameLength := attr.name.utf8ByteSize
  paint i nameLength .attributeName
  let eq ← seek s '=' .equals (i + nameLength)
  paint eq 1 .delimiter
  let opening ← seek s attr.quote .openingQuote (eq + 1)
  let start := opening + 1
  let length := valueLength s start attr.value attr.quote
  paint start length .attributeValue
  return start + length + attr.quote.utf8Size

/-- The spans of some attributes, and the offset after the last of them; `i` is the offset before
    the first. -/
def attributesSpans (i : Nat) : List TagAttribute → Painting Nat
  | [] => pure i
  | attr :: rest => do
    let i ← attributeSpans s index attr
    attributesSpans i rest

/-! ### Tokens -/

/-- The spans of a token. -/
def tokenSpans : Token → Painting Unit
  | .startTag name pos attributes empty => do
    let i ← offsetOf index pos
    if i = 0 then .fail (.misaligned .tagStart i)
    paint (i - 1) 1 .delimiter
    let nameLength := name.utf8ByteSize
    paint i nameLength .elementName
    let j ← attributesSpans s index (i + nameLength) attributes
    let close ← seek s '>' .tagEnd j
    if empty && 0 < close then paint (close - 1) 2 .delimiter else paint close 1 .delimiter
  | .endTag name pos => do
    let i ← offsetOf index pos
    if i < 2 then .fail (.misaligned .endTagStart i)
    paint (i - 2) 2 .delimiter
    let nameLength := name.utf8ByteSize
    paint i nameLength .elementName
    let close ← seek s '>' .tagEnd (i + nameLength)
    paint close 1 .delimiter
  | .comment body pos => do
    let i ← offsetOf index pos
    paint i body.utf8ByteSize .comment
  | .lone _ | .text _ _ | .instruction _ => pure ()

end XmlHighlight
