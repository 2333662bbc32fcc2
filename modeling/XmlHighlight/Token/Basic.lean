import XmlHighlight.Position

/-!
# Tokens — what a scan is told about a document

* `TagAttribute` — an attribute of a start tag;
* `Token` — a tag, a comment, or another piece of a document, with its position.
-/

namespace XmlHighlight

/-- An attribute of a start tag. -/
structure TagAttribute where
  /-- The name as written. -/
  name : String
  /-- The value with references replaced; a namespace declaration keeps its text. -/
  value : String
  /-- The quote around the value. -/
  quote : Char
  /-- The position of the name. -/
  pos : TextPos
  deriving DecidableEq, Repr, Inhabited

/-- A piece of a document. -/
inductive Token where
  /-- A start tag, at the position of its name. It is `empty` if it ends with `/>`, and then no end
      tag follows. -/
  | startTag (name : String) (pos : TextPos) (attributes : List TagAttribute) (empty : Bool)
  /-- An end tag, at the position of its name. -/
  | endTag (name : String) (pos : TextPos)
  /-- Character data of so many bytes. -/
  | text (pos : TextPos) (length : Nat)
  /-- A comment, at the position of its body. -/
  | comment (body : String) (pos : TextPos)
  /-- An attribute that comes without its tag. -/
  | lone (attr : TagAttribute)
  | instruction (pos : TextPos)
  deriving DecidableEq, Repr, Inhabited

/-- The position of a token. -/
def Token.pos : Token → TextPos
  | startTag _ pos _ _ => pos
  | endTag _ pos => pos
  | text pos _ => pos
  | comment _ pos => pos
  | lone attr => attr.pos
  | instruction pos => pos

end XmlHighlight
