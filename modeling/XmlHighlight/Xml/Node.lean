import XmlHighlight.Xml.Markup

/-!
# Nodes — the tree of a document

* `Xml.NodeKind` — what a node is;
* `Xml.Node` — a node with its place in the source and its children in order.
-/

namespace XmlHighlight.Xml

/-- What a node of a document is. -/
inductive NodeKind where
  /-- The document itself, around everything else. -/
  | document
  /-- An element, with the value of each attribute that is not a namespace declaration. The
      attribute is known by the offset at which its name begins. -/
  | element (values : List (Nat × String))
  /-- Character data. Adjacent pieces of it form one node, in the place of the first of them. -/
  | text
  | comment
  | instruction
  deriving DecidableEq, Repr

/-- A node: what it is, where in the source it stands, and its children. The place of a node that
    comes out of an entity is that of the replacement text. -/
inductive Node where
  | node (kind : NodeKind) (extent : Extent) (children : List Node)
  deriving Repr

namespace Node

/-- What the node is. -/
def kind : Node → NodeKind
  | node kind _ _ => kind

/-- The place of the node in the source. -/
def extent : Node → Extent
  | node _ extent _ => extent

/-- The nodes directly inside the node, in order. -/
def children : Node → List Node
  | node _ _ children => children

/-- The node is an element. -/
def isElement (n : Node) : Bool :=
  match n.kind with
  | .element _ => true
  | _ => false

end Node

end XmlHighlight.Xml
