import XmlHighlight.Digit
import XmlHighlight.Position

/-!
# Why a document is not well formed

* `Xml.Fault` — the kinds of mistake;
* `Xml.SyntaxError` — a mistake and the offset that its message points at;
* `Xml.SyntaxError.message` — what the user is told.
-/

namespace XmlHighlight.Xml

/-- A way in which a document can be malformed. -/
inductive Fault where
  /-- The document ends in the middle of some markup. -/
  | endOfInput
  | noRootElement
  | unclosedRootElement
  | unknownMarkup
  | invalidName
  | invalidExternalId
  | malformedReference
  | unexpectedDeclaration
  | unexpectedCloseTag
  | entityLoop
  | doubleHyphenInComment
  | cdataEndInText
  | lessThanInValue
  | xmlnsElementPrefix
  | xmlnsUriDeclared
  | xmlUriMisused
  | xmlPrefixMisused
  /-- White space, or one of a few other things described by `wanted`, should stand here. -/
  | expected (wanted : String) (found : UInt8)
  /-- The byte `wanted` should stand here. -/
  | expectedByte (wanted found : UInt8)
  /-- The text `wanted` should stand here. -/
  | expectedText (wanted : String)
  | notXmlChar (c : Char)
  | mismatchedTag (opened closed : String)
  | unknownEntity (name : String)
  | unknownNamespacePrefix (name : String)
  | duplicateNamespace (name : String)
  | duplicateAttribute (name : String)
  deriving DecidableEq, Repr

/-- The character that shows a byte: the one whose code point is the byte. -/
def shownByte (b : UInt8) : String := String.singleton (Char.ofNat b.toNat)

/-- A character that a document may not contain, as a quoted escape. -/
def shownChar (c : Char) : String :=
  if c.val == 0 then "'\\0'"
  else "'\\u\x7b" ++ String.ofList (Nat.toDigits 16 c.val.toNat) ++ "\x7d'"

/-- What the user is told about a mistake, `place` being its position in words. -/
def Fault.message (place : String) : Fault → String
  | endOfInput => "unexpected end of stream"
  | noRootElement => "the document does not have a root node"
  | unclosedRootElement => "the root node was opened but never closed"
  | unknownMarkup => "unknown token at " ++ place
  | invalidName => "invalid name token at " ++ place
  | invalidExternalId => "invalid ExternalID at " ++ place
  | malformedReference => "malformed entity reference at " ++ place
  | unexpectedDeclaration => "unexpected XML declaration at " ++ place
  | unexpectedCloseTag => "unexpected close tag at " ++ place
  | entityLoop => "a possible entity reference loop is detected at " ++ place
  | doubleHyphenInComment => "comment at " ++ place ++ " contains '--'"
  | cdataEndInText => "']]>' at " ++ place ++ " is not allowed inside a character data"
  | lessThanInValue => "unescaped '<' found at " ++ place
  | xmlnsElementPrefix => "the 'xmlns' prefix is used at " ++ place ++ ", but it must not be"
  | xmlnsUriDeclared => "the 'xmlns' URI is used at " ++ place ++ ", but it must not be declared"
  | xmlUriMisused => "the 'xml' namespace URI is used for not 'xml' prefix at " ++ place
  | xmlPrefixMisused => "'xml' namespace prefix mapped to wrong URI at " ++ place
  | expected wanted found => "expected " ++ wanted ++ " not '" ++ shownByte found ++ "' at "
    ++ place
  | expectedByte wanted found =>
    "expected '" ++ shownByte wanted ++ "' not '" ++ shownByte found ++ "' at " ++ place
  | expectedText wanted => "expected '" ++ wanted ++ "' at " ++ place
  | notXmlChar c => "a non-XML character " ++ shownChar c ++ " found at " ++ place
  | mismatchedTag opened closed =>
    "expected '" ++ opened ++ "' tag, not '" ++ closed ++ "' at " ++ place
  | unknownEntity name => "unknown entity reference '" ++ name ++ "' at " ++ place
  | unknownNamespacePrefix name => "an unknown namespace prefix '" ++ name ++ "' at " ++ place
  | duplicateNamespace name => "namespace '" ++ name ++ "' at " ++ place ++ " is already defined"
  | duplicateAttribute name => "attribute '" ++ name ++ "' at " ++ place ++ " is already defined"

/-- A mistake, and the offset at which it shows. -/
structure SyntaxError where
  fault : Fault
  offset : Nat
  deriving DecidableEq, Repr

/-- What the user is told: the mistake, and its row and column in the source. -/
def SyntaxError.message (s : Source) (e : SyntaxError) : String :=
  let pos := s.rowColumn e.offset
  e.fault.message (decimal pos.line ++ ":" ++ decimal pos.column)

end XmlHighlight.Xml
