import XmlHighlight.Blank
import XmlHighlight.Token.Basic
import XmlHighlight.Token.Slot
import XmlHighlight.Token.Walk
import XmlHighlight.Xml.Document

/-!
# Token stream — a document as tokens in source order

Every node that a walk stops at gives a token or none: an element gives its start tag when it is
entered and its end tag when it is left.

* `qualifiedName` — the name that begins at an offset;
* `isSelfClosing` — the text of an element ends with `/>`;
* `tokenAt` — the token of a step;
* `tokensOf`, `tokens` — the tokens of a tree, and of a source.
-/

namespace XmlHighlight

open Xml (Node Extent)

variable (s : Source)

/-- An extent is the place of a text: its ends are in order and between characters. -/
def holds (extent : Extent) : Bool :=
  extent.start ≤ extent.stop && s.isBoundary extent.start && s.isBoundary extent.stop

/-- The name that begins at an offset: the text up to a blank character, `/` or `>`. -/
def qualifiedName (i : Nat) : String :=
  s.slice i (s.skipChars (fun _ c => !isBlank c && c != '/' && c != '>') s.size i)

/-- The text of an element ends with `/>`. -/
def isSelfClosing (extent : Extent) : Bool :=
  holds s extent && decide (extent.start + 2 ≤ extent.stop)
    && s.startsWith "/>" extent.stop (extent.stop - 2)

/-- The attribute in a slot. Its value is the one that the document gives to the attribute whose
    name begins there, or else the text of the slot. -/
def slotAttribute (values : List (Nat × String)) (slot : Slot) (pos : TextPos) : TagAttribute where
  name := s.slice slot.name.start slot.name.stop
  value :=
    match values.find? (·.1 == slot.name.start) with
    | some (_, value) => value
    | none => s.slice slot.value.start slot.value.stop
  quote := Char.ofNat slot.quote.toNat
  pos := pos

/-- The attributes in some slots, and the cursor after them. -/
def slotAttributes (values : List (Nat × String)) (cursor : LineCursor) :
    List Slot → List TagAttribute × LineCursor
  | [] => ([], cursor)
  | slot :: rest =>
    let cursor := cursor.moveTo s slot.name.start
    let attr := slotAttribute s values slot cursor.pos
    let (attrs, cursor) := slotAttributes values cursor rest
    (attr :: attrs, cursor)

/-- The start tag of an element that stands at `extent`. -/
def startToken (values : List (Nat × String)) (extent : Extent) (cursor : LineCursor) :
    Token × LineCursor :=
  -- The name is read from the text again, since the tree does not keep it as it is written.
  let nameStart := extent.start + 1
  let name := qualifiedName s nameStart
  let cursor := cursor.moveTo s nameStart
  let (attrs, last) := slotAttributes s values cursor (slots s (nameStart + name.utf8ByteSize))
  (.startTag name cursor.pos attrs (isSelfClosing s extent), last)

/-- The end tag of an element that stands at `extent`: the last `</` in its text. -/
def endToken? (extent : Extent) (cursor : LineCursor) : Option (Token × LineCursor) :=
  if isSelfClosing s extent || !holds s extent then none
  else
    (s.findLast? "</" extent.start extent.stop).map fun i =>
      let cursor := cursor.moveTo s (i + 2)
      (.endTag (qualifiedName s (i + 2)) cursor.pos, cursor)

/-- The comment that stands at `extent`. -/
def commentToken (extent : Extent) (cursor : LineCursor) : Token × LineCursor :=
  let bodyStart := extent.start + 4
  let cursor := cursor.moveTo s bodyStart
  (.comment (s.slice bodyStart (max (extent.stop - 3) bodyStart)) cursor.pos, cursor)

/-- The token of a step, and the cursor after it. -/
def tokenAt (cursor : LineCursor) : Step → Option (Token × LineCursor)
  | .enter ⟨node, _, _⟩ =>
    match node.kind with
    | .document => none
    | .element values => some (startToken s values node.extent cursor)
    | .text =>
      let cursor := cursor.moveTo s node.extent.start
      some (.text cursor.pos (node.extent.stop - node.extent.start), cursor)
    | .comment => some (commentToken s node.extent cursor)
    | .instruction =>
      let cursor := cursor.moveTo s node.extent.start
      some (.instruction cursor.pos, cursor)
  | .leave ⟨node, _, _⟩ => if node.isElement then endToken? s node.extent cursor else none

/-- The tokens of a document tree. -/
def tokensOf (root : Node) : Array Token :=
  (foldWalk (fun (found, cursor) step =>
    match tokenAt s cursor step with
    | some (token, cursor) => (found.push token, cursor)
    | none => (found, cursor)) (#[], LineCursor.origin) root).1

/-- The tokens of a document, or the first mistake in it. -/
def tokens : Except Xml.SyntaxError (Array Token) := (Xml.parse s).map (tokensOf s)

end XmlHighlight
