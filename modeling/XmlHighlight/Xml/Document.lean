import XmlHighlight.Xml.Namespace
import XmlHighlight.Xml.Node

/-!
# Documents — from markup to a tree

The pieces of content build a tree from the outside in: a start tag opens an element, an end tag
closes the innermost one. An entity contributes its replacement text as content of its own, whose
tags may close elements opened around it and leave elements open after it.

* `Xml.Tree` — a document under construction;
* `Xml.Tree.startTag`, `Xml.Tree.endTag`, `Xml.Tree.addText` — the effect of a piece of markup;
* `Xml.readContent`, `Xml.content` — reading content, and entities inside it;
* `Xml.parse` — the tree of a source, or the first mistake in it.
-/

namespace XmlHighlight.Xml

/-- An element that has been opened and not yet closed. -/
structure OpenElement where
  name : QName
  start : Nat
  values : List (Nat × String)
  scope : Scope

/-- An open element and the nodes in it so far, latest first. -/
structure Level where
  element : OpenElement
  children : List Node

/-- A document under construction. -/
structure Tree where
  /-- The nodes directly in the document, latest first. -/
  top : List Node
  /-- The open elements, innermost first. -/
  levels : List Level
  /-- The attributes that belong to the next tag to end. -/
  pending : Pending
  /-- A start tag has been read in the run of content at hand. -/
  sawTag : Bool
  /-- Character data that comes next belongs to the text node before it. -/
  afterText : Bool
  /-- How many entities have been opened inside others. -/
  expansions : Nat

namespace Tree

/-- The document before its first node. -/
def empty : Tree := ⟨[], [], .empty, false, false, 0⟩

/-- Adds a node to the innermost open element, or to the document if there is none. -/
def addNode (t : Tree) (node : Node) : Tree :=
  match t.levels with
  | [] => { t with top := node :: t.top }
  | level :: outer =>
      { t with levels := { level with children := node :: level.children } :: outer }

/-- Adds a comment or a processing instruction. -/
def addLeaf (t : Tree) (kind : NodeKind) (extent : Extent) : Tree :=
  { t.addNode (.node kind extent []) with afterText := false }

/-- Adds a piece of character data. It joins the text node right before it. -/
def appendText (t : Tree) (extent : Extent) : Tree :=
  if t.afterText then t else { t.addNode (.node .text extent []) with afterText := true }

/-- The namespaces in force where the next node goes. -/
def scope (t : Tree) : Scope :=
  match t.levels with
  | [] => []
  | level :: _ => level.element.scope

variable (s : Source) (entities : Array Entity)

/-- Reads the attributes of a tag, one after the other. -/
def addAttributes (room : Nat) (t : Tree) : List AttributeMarkup → Except SyntaxError Tree
  | [] => .ok t
  | attr :: rest => do
    let value ← normalizeValue s entities room attr.value ⟨"", t.expansions⟩
    let pending ← t.pending.add ⟨attr.nameExtent.start, attr.name, value.text⟩
    addAttributes room { t with pending, expansions := value.expansions } rest

/-- At the end of a tag the attributes that have been read are checked in the scope inside the tag.
    They are used up. -/
def settle (t : Tree) : Except SyntaxError (Tree × Scope × List (Nat × String)) := do
  let scope := t.pending.scope t.scope
  checkAttributes scope [] t.pending.attributes
  return ({ t with pending := .empty, afterText := false }, scope,
    t.pending.attributes.map fun attr => (attr.start, attr.value))

/-- Reads a start tag. A tag that is cut off leaves its attributes to the next tag. -/
def startTag (room : Nat) (t : Tree) (tag : StartTag) : Except SyntaxError Tree := do
  if tag.name.qualifier == "xmlns" then refuse .xmlnsElementPrefix tag.nameExtent.start
  let t ← addAttributes s entities room { t with afterText := false, sawTag := true } tag.attributes
  match tag.ending with
  | .faulty e => .error e
  | .cutOff => return t
  | .selfClosed =>
    let (t, scope, values) ← t.settle
    let _ ← resolvePrefix scope tag.name.qualifier tag.nameExtent.start
    return t.addNode (.node (.element values) tag.extent [])
  | .opened =>
    let (t, scope, values) ← t.settle
    let _ ← resolvePrefix scope tag.name.qualifier tag.nameExtent.start
    return { t with levels := ⟨⟨tag.name, tag.extent.start, values, scope⟩, []⟩ :: t.levels }

/-- Reads an end tag, which has to name the innermost open element. An entity may not begin with
    one. -/
def endTag (t : Tree) (tag : EndTag) : Except SyntaxError Tree := do
  if !t.sawTag then refuse .unexpectedCloseTag tag.extent.start
  let (t, _, _) ← t.settle
  match t.levels with
  | [] => refuse .unexpectedCloseTag tag.extent.start
  | ⟨element, children⟩ :: outer =>
    if element.name == tag.name then
      return { t with levels := outer }.addNode
        (.node (.element element.values) ⟨element.start, tag.extent.stop⟩ children.reverse)
    else refuse (.mismatchedTag element.name.text tag.name.text) tag.extent.start

/-- Reads a run of text from offset `i` on; `whole` is the place of the run. What comes before a
    reference to an entity is a piece of its own, and so is what comes after it. The entity is left
    to `expand`, which is told the end of the reference and the place of the replacement text. The
    current piece has something in it if `nonempty` holds. -/
def addText (expand : Nat → Extent → Tree → Except SyntaxError Tree) (whole : Extent) (i : Nat)
    (nonempty : Bool) (t : Tree) : Except SyntaxError Tree :=
  have := s.le_skipWhile (· != 38) whole.stop i
  let j := s.skipWhile (· != 38) whole.stop i
  let nonempty := nonempty || decide (i < j)
  if j < whole.stop then
    match readReference? s whole.stop j with
    | none => refuse .malformedReference j
    | some ⟨.character _, k, _⟩ => addText expand whole k true t
    | some ⟨.entity name, k, _⟩ =>
      match findEntity? entities name with
      | none => refuse (.unknownEntity name) j
      | some entity =>
        match expand k entity.value (if nonempty then t.appendText whole else t) with
        | .ok t => addText expand whole k false t
        | .error e => .error e
  else .ok (if nonempty then t.appendText whole else t)
termination_by whole.stop - i

/-- Reads a piece of content. -/
def add (expand : Nat → Extent → Tree → Except SyntaxError Tree) (room : Nat) (t : Tree) :
    Markup → Except SyntaxError Tree
  | .startTag tag => startTag s entities room t tag
  | .endTag tag => endTag t tag
  | .comment extent => .ok (t.addLeaf .comment extent)
  | .instruction extent => .ok (t.addLeaf .instruction extent)
  | .cdata extent => .ok (t.appendText extent)
  | .text extent => addText s entities expand extent extent.start false t

end Tree

/-! ### Content -/

/-- The number of elements open in a run of content after a piece of it. There is none after an end
    tag for an element that was open before the run began. -/
def depthAfter (depth : Nat) : Markup → Option Nat
  | .startTag tag => if tag.ending = .opened then some (depth + 1) else some depth
  | .endTag _ => if depth = 0 then none else some (depth - 1)
  | _ => some depth

variable (s : Source) (entities : Array Entity)

/-- Reads content from offset `i` on, up to `stop` or to an end tag for an element that was open
    before. The answer is the tree and the offset reached. -/
def readContent (expand : Nat → Extent → Tree → Except SyntaxError Tree) (room stop i depth : Nat)
    (t : Tree) : Except SyntaxError (Tree × Nat) :=
  if i < stop then
    match readMarkup s stop i with
    | .error e => .error e
    | .ok ⟨markup, j, _⟩ =>
      match t.add s entities expand room markup with
      | .error e => .error e
      | .ok t =>
        match depthAfter depth markup with
        | some depth => readContent expand room stop j depth t
        | none => .ok (t, j)
  else .ok (t, i)
termination_by stop - i

/-- Reads content where so many more entities may be opened. -/
def content : (room : Nat) → (stop i : Nat) → Tree → Except SyntaxError (Tree × Nat)
  | 0, stop, i, t => readContent s entities (fun k _ _ => refuse .entityLoop k) 0 stop i 0 t
  | room + 1, stop, i, t =>
    readContent s entities
      (fun k value t => do
        -- The entity may close elements opened around it, but only after a start tag of its own.
        let expansions ← countEntity (room + 1) t.expansions k
        let (inner, _) ← content room value.stop value.start { t with sawTag := false, expansions }
        return { inner with
          sawTag := t.sawTag, expansions := recountEntities (room + 1) inner.expansions })
      (room + 1) stop i 0 t

/-! ### The whole document -/

/-- Adds the comments and processing instructions before or after the root element. -/
def Tree.addMisc (t : Tree) (pieces : Array Markup) : Tree :=
  pieces.foldl (fun t piece =>
    match piece with
    | .comment extent => t.addLeaf .comment extent
    | .instruction extent => t.addLeaf .instruction extent
    | _ => t) t

/-- Reads the root element, if there is one at offset `i`. -/
def readRoot (stop i : Nat) (t : Tree) : Except SyntaxError (Tree × Nat) :=
  if s.byteIn? stop i == some lessThan then do
    let ⟨tag, j, _⟩ ← readStartTag s stop i
    let t ← t.startTag s entities maxDepth tag
    if tag.ending = .opened then content s entities maxDepth stop j t else return (t, j)
  else .ok (t, i)

/-- The tree of a source, or the first mistake in it. -/
def parse : Except SyntaxError Node := do
  let stop := s.size
  let (prolog, i) ← readProlog s stop
  let (t, i) ← readRoot s prolog.entities stop i (Tree.empty.addMisc prolog.pieces)
  let (pieces, i) ← readMisc s stop i #[]
  if i < stop then refuse .unknownMarkup i
  let t := t.addMisc pieces
  -- Whether there is a root element, and whether it is closed, counts after all other mistakes.
  match t.levels with
  | [] =>
    if t.top.any Node.isElement then return .node .document ⟨0, stop⟩ t.top.reverse
    else refuse .noRootElement stop
  | level :: outer =>
    let outermost := (level :: outer).getLast (by simp)
    refuse .unclosedRootElement outermost.element.start

end XmlHighlight.Xml
