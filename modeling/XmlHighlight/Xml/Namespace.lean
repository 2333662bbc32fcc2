import XmlHighlight.Xml.AttributeValue

/-!
# Namespaces — what prefixes stand for

* `Xml.Scope` — the prefixes in force and their namespaces;
* `Xml.Attribute` — an attribute with its value;
* `Xml.Pending`, `Xml.Pending.add` — what the attributes read so far declare, and say, for the next
  tag;
* `Xml.Pending.scope` — the scope of that tag;
* `Xml.resolvePrefix`, `Xml.checkAttributes` — prefixes have to be known, attributes to be distinct.
-/

namespace XmlHighlight.Xml

/-- The namespace of the prefix `xml`. -/
def xmlUri : String := "http://www.w3.org/XML/1998/namespace"

/-- The namespace of the prefix `xmlns`. -/
def xmlnsUri : String := "http://www.w3.org/2000/xmlns/"

/-- Prefixes and their namespaces. The empty prefix stands for names without one. -/
abbrev Scope := List (String × String)

/-- An attribute: where its name begins, its name, and its value. -/
structure Attribute where
  start : Nat
  name : QName
  value : String
  deriving DecidableEq, Repr

/-- Attributes that have been read, in order: namespace declarations and others apart. -/
structure Pending where
  declared : Scope
  attributes : List Attribute
  deriving DecidableEq

namespace Pending

/-- No attribute has been read. -/
def empty : Pending := ⟨[], []⟩

/-- Declares the namespace of a prefix for the tag at hand. -/
def declare (p : Pending) (scheme uri : String) : Pending :=
  { p with declared := p.declared ++ [(scheme, uri)] }

/-- Reads one more attribute, which may be a namespace declaration. The prefix `xml` may only be
    declared to be what it is, and needs no record. Of two default namespaces the first counts. -/
def add (p : Pending) (attr : Attribute) : Except SyntaxError Pending :=
  let ⟨start, name, value⟩ := attr
  if name.qualifier == "xmlns" then
    if value == xmlnsUri then refuse .xmlnsUriDeclared start
    else if name.localName == "xml" then
      if value == xmlUri then .ok p else refuse .xmlPrefixMisused start
    else if value == xmlUri then refuse .xmlUriMisused start
    else if p.declared.any (·.1 == name.localName) then
      refuse (.duplicateNamespace name.localName) start
    else .ok (p.declare name.localName value)
  else if name.localName == "xmlns" then
    if value == xmlUri then refuse .xmlUriMisused start
    else if value == xmlnsUri then refuse .xmlnsUriDeclared start
    else .ok (p.declare "" value)
  else .ok { p with attributes := p.attributes ++ [attr] }

/-- The scope inside the tag at hand, given the scope around it. -/
def scope (p : Pending) (outer : Scope) : Scope :=
  if p.declared.isEmpty then outer
  else p.declared ++ outer.filter fun (scheme, _) => !p.declared.any (·.1 == scheme)

end Pending

/-- The namespace of a prefix used at offset `i`. A name without a prefix may have none. -/
def resolvePrefix (scope : Scope) (scheme : String) (i : Nat) :
    Except SyntaxError (Option String) :=
  match scope.find? (·.1 == scheme) with
  | some (_, uri) => .ok (some uri)
  | none => if scheme.isEmpty then .ok none else refuse (.unknownNamespacePrefix scheme) i

/-- The namespace of an attribute. One without a prefix has none, and `xml` needs no declaration. -/
def attributeNamespace (scope : Scope) (attr : Attribute) : Except SyntaxError (Option String) :=
  if attr.name.qualifier == "xml" then .ok (some xmlUri)
  else if attr.name.qualifier.isEmpty then .ok none
  else resolvePrefix scope attr.name.qualifier attr.start

/-- Checks that the prefixes of the attributes are known, and that no two of them have the same
    namespace and local name. Earlier ones have been checked already. -/
def checkAttributes (scope : Scope) :
    (checked : List (Option String × String)) → List Attribute → Except SyntaxError Unit
  | _, [] => .ok ()
  | checked, attr :: rest => do
    let uri ← attributeNamespace scope attr
    let key := (uri, attr.name.localName)
    if checked.contains key then refuse (.duplicateAttribute attr.name.localName) attr.start
    else checkAttributes scope (key :: checked) rest

end XmlHighlight.Xml
