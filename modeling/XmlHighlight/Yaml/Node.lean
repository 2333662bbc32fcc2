import XmlHighlight.Yaml.Token

/-!
# Nodes — the tree that a YAML text describes

A node is a scalar, a sequence or a mapping. An alias stands for a node that has been given a name,
and is kept as a number, since the node may contain the alias.

* `Yaml.Node`, `Yaml.Document` — a node, and the whole of a text;
* `Yaml.Document.resolve` — the node behind an alias;
* `Yaml.parse?` — the only document of a text.
-/

namespace XmlHighlight.Yaml

/-- A node. A scalar is told apart by whether it has been written without quotes. -/
inductive Node where
  | scalar (text : String) (isPlain : Bool)
  | sequence (items : List Node)
  | mapping (entries : List (Node × Node))
  | alias (number : Nat)

namespace Node

/-- What is missing in a text is a plain scalar without characters. -/
def empty : Node := .scalar "" true

end Node

/-! ### Anchors -/

/-- The anchors of a document. -/
structure Anchors where
  /-- The number that stands for each name. -/
  numbers : List (String × Nat) := []
  /-- Which anchor a number belongs to, the last one first. -/
  owners : List (Nat × Nat) := []
  /-- How many anchors there have been. -/
  count : Nat := 0
  /-- The node at each anchor. -/
  nodes : List (Nat × Node) := []

namespace Anchors

/-- An anchor begins. It gets the number of names before it, which another anchor has already if
    names have been used twice. The answer tells, too, which anchor this is. -/
def declare (a : Anchors) (name : String) : Nat × Anchors :=
  let number := a.numbers.length
  (a.count,
    { a with
      numbers := (name, number) :: a.numbers.filter (·.1 != name)
      owners := (number, a.count) :: a.owners
      count := a.count + 1 })

/-- The node at an anchor has ended. -/
def close (a : Anchors) (anchor : Option Nat) (node : Node) : Anchors :=
  match anchor with
  | some n => { a with nodes := (n, node) :: a.nodes }
  | none => a

/-- The number that stands for a name. -/
def number? (a : Anchors) (name : String) : Option Nat := a.numbers.lookup name

/-- The node that a number stands for. -/
def node? (a : Anchors) (number : Nat) : Option Node :=
  (a.owners.lookup number).bind (a.nodes.lookup ·)

end Anchors

/-- A document: its node, and the nodes behind its aliases. -/
structure Document where
  root : Node
  anchors : Anchors

namespace Document

/-- The node itself, or the one that an alias stands for. -/
def resolve (d : Document) : Node → Option Node
  | .alias n => d.anchors.node? n
  | node => some node

end Document

/-! ### Reading -/

/-- What is left of the tokens, and the anchors so far. -/
structure Reader where
  rest : List Token
  anchors : Anchors
  /-- The handles that tags may begin with. -/
  handles : List String

namespace Reader

/-- After the first token. -/
def next (r : Reader) : Reader := { r with rest := r.rest.tail }

/-- The first token is one of `ts`, or there is none. -/
def endsAt (r : Reader) (ts : List Token) : Bool :=
  match r.rest with
  | t :: _ => ts.contains t
  | [] => false

/-- The anchor and the tag before a node, in either order. -/
structure Properties where
  anchor : Option Nat
  isGiven : Bool

/-- An anchor, if there is one. -/
def anchor? (r : Reader) : Option Nat × Reader :=
  match r.rest with
  | .anchor name :: rest =>
    let (n, anchors) := r.anchors.declare name
    (some n, { r with rest := rest, anchors := anchors })
  | _ => (none, r)

/-- A tag, if there is one. Its handle has to be known. -/
def tag? (r : Reader) : Option (Bool × Reader) :=
  match r.rest with
  | .tag handle :: _ =>
    if handle.isEmpty || r.handles.contains handle then some (true, r.next) else none
  | _ => some (false, r)

/-- The anchor and the tag before a node. -/
def properties? (r : Reader) : Option (Properties × Reader) :=
  match r.anchor? with
  | (some n, r) => do
    let (_, r) ← r.tag?
    pure (⟨some n, true⟩, r)
  | (none, r) => do
    let (isTagged, r) ← r.tag?
    let (anchor, r) := if isTagged then r.anchor? else (none, r)
    pure (⟨anchor, isTagged⟩, r)

mutual

/-- A node. Block collections may begin here if `inBlock`, and sequences that are not indented if
    `unindented`. -/
def node? : Nat → (inBlock unindented : Bool) → Reader → Option (Node × Reader)
  | 0, _, _, _ => none
  | fuel + 1, inBlock, unindented, r =>
    match r.rest with
    | .alias name :: _ => do
      let n ← r.anchors.number? name
      pure (.alias n, r.next)
    | _ => do
      let (p, r) ← r.properties?
      let (node, r) ← content? fuel inBlock unindented p.isGiven r
      pure (node, { r with anchors := r.anchors.close p.anchor node })

/-- A node without what stands before it. It may be missing if `optional`. -/
def content? : Nat → (inBlock unindented optional : Bool) → Reader → Option (Node × Reader)
  | 0, _, _, _, _ => none
  | fuel + 1, inBlock, unindented, optional, r =>
    let missing : Option (Node × Reader) := if optional then some (.empty, r) else none
    match r.rest with
    | .scalar text isPlain :: _ => some (.scalar text isPlain, r.next)
    | .flowSequence :: _ => do
      let (items, r) ← flowItems? fuel true r.next
      pure (.sequence items, r)
    | .flowMapping :: _ => do
      let (entries, r) ← flowEntries? fuel true r.next
      pure (.mapping entries, r)
    | .blockEntry :: _ =>
      if unindented then do
        let (items, r) ← unindentedItems? fuel r
        pure (.sequence items, r)
      else missing
    | .blockSequence :: _ =>
      if inBlock then do
        let (items, r) ← blockItems? fuel r.next
        pure (.sequence items, r)
      else missing
    | .blockMapping :: _ =>
      if inBlock then do
        let (entries, r) ← blockEntries? fuel r.next
        pure (.mapping entries, r)
      else missing
    | _ => missing

/-- A node, which is missing if one of `ends` comes first. -/
def nodeUnless? : Nat → List Token → (inBlock unindented : Bool) → Reader → Option (Node × Reader)
  | 0, _, _, _, _ => none
  | fuel + 1, ends, inBlock, unindented, r =>
    if r.endsAt ends then some (.empty, r) else node? fuel inBlock unindented r

/-- The items of a block sequence. -/
def blockItems? : Nat → Reader → Option (List Node × Reader)
  | 0, _ => none
  | fuel + 1, r =>
    match r.rest with
    | .blockEntry :: _ => do
      let (item, r) ← nodeUnless? fuel [.blockEntry, .blockEnd] true false r.next
      let (items, r) ← blockItems? fuel r
      pure (item :: items, r)
    | .blockEnd :: _ => some ([], r.next)
    | _ => none

/-- The items of a sequence that is not indented. -/
def unindentedItems? : Nat → Reader → Option (List Node × Reader)
  | 0, _ => none
  | fuel + 1, r =>
    match r.rest with
    | .blockEntry :: _ => do
      let (item, r) ← nodeUnless? fuel [.blockEntry, .key, .value, .blockEnd] true false r.next
      let (items, r) ← unindentedItems? fuel r
      pure (item :: items, r)
    | _ => some ([], r)

/-- The entries of a block mapping. -/
def blockEntries? : Nat → Reader → Option (List (Node × Node) × Reader)
  | 0, _ => none
  | fuel + 1, r =>
    match r.rest with
    | .key :: _ => do
      let (key, r) ← nodeUnless? fuel [.key, .value, .blockEnd] true true r.next
      let (value, r) ← blockValue? fuel r
      let (entries, r) ← blockEntries? fuel r
      pure ((key, value) :: entries, r)
    | .blockEnd :: _ => some ([], r.next)
    | _ => none

/-- The value after a key in a block mapping. -/
def blockValue? : Nat → Reader → Option (Node × Reader)
  | 0, _ => none
  | fuel + 1, r =>
    match r.rest with
    | .value :: _ => nodeUnless? fuel [.key, .value, .blockEnd] true true r.next
    | _ => some (.empty, r)

/-- The items between brackets. A comma stands before each but the first, and maybe before the
    bracket at the end. -/
def flowItems? : Nat → (isFirst : Bool) → Reader → Option (List Node × Reader)
  | 0, _, _ => none
  | fuel + 1, isFirst, r =>
    match r.rest with
    | .flowSequenceEnd :: _ => some ([], r.next)
    | t :: _ =>
      if !isFirst && t != .flowEntry then none
      else
        let r := if isFirst then r else r.next
        match r.rest with
        | .flowSequenceEnd :: _ => some ([], r.next)
        | .key :: _ => do
          let (pair, r) ← flowPair? fuel r.next
          let (items, r) ← flowItems? fuel false r
          pure (.mapping [pair] :: items, r)
        | _ => do
          let (item, r) ← node? fuel false false r
          let (items, r) ← flowItems? fuel false r
          pure (item :: items, r)
    | [] => none

/-- A key with its value between brackets. Whatever takes the place of a missing key is passed
    over. -/
def flowPair? : Nat → Reader → Option ((Node × Node) × Reader)
  | 0, _ => none
  | fuel + 1, r => do
    let (key, r) ←
      if r.endsAt [.value, .flowEntry, .flowSequenceEnd] then some (Node.empty, r.next)
      else node? fuel false false r
    let (value, r) ← flowValue? fuel .flowSequenceEnd r
    pure ((key, value), r)

/-- The value after a key between brackets or braces. -/
def flowValue? : Nat → (closing : Token) → Reader → Option (Node × Reader)
  | 0, _, _ => none
  | fuel + 1, closing, r =>
    match r.rest with
    | .value :: _ => nodeUnless? fuel [.flowEntry, closing] false false r.next
    | _ => some (.empty, r)

/-- The entries between braces. -/
def flowEntries? : Nat → (isFirst : Bool) → Reader → Option (List (Node × Node) × Reader)
  | 0, _, _ => none
  | fuel + 1, isFirst, r =>
    match r.rest with
    | .flowMappingEnd :: _ => some ([], r.next)
    | t :: _ =>
      if !isFirst && t != .flowEntry then none
      else
        let r := if isFirst then r else r.next
        match r.rest with
        | .flowMappingEnd :: _ => some ([], r.next)
        | .key :: _ => do
          let (key, r) ← nodeUnless? fuel [.value, .flowEntry, .flowMappingEnd] false false r.next
          let (value, r) ← flowValue? fuel .flowMappingEnd r
          let (entries, r) ← flowEntries? fuel false r
          pure ((key, value) :: entries, r)
        | _ => do
          let (key, r) ← node? fuel false false r
          let (entries, r) ← flowEntries? fuel false r
          pure ((key, .empty) :: entries, r)
    | [] => none

end

/-- The lines before the `---` of a document: the version, which is known and given only once, and
    the handles, each of them once. -/
def directives? : List Token → (hasVersion : Bool) → (handles : List String) →
    Option (List Token × List String)
  | .version major minor :: rest, hasVersion, handles =>
    if hasVersion || major != 1 || (minor != 1 && minor != 2) then none
    else directives? rest true handles
  | .handle name :: rest, hasVersion, handles =>
    if handles.contains name then none else directives? rest hasVersion (name :: handles)
  | rest, _, handles => some (rest, handles)

end Reader

/-- The handles that need no declaration. -/
def defaultHandles : List String := ["!", "!!"]

/-- A bound on the depth of calls that reading these tokens takes. Before a token is passed over, a
    few readers call each other. -/
def readingFuel (ts : List Token) : Nat := 4 * ts.length + 8

/-- The document that some tokens describe, which have to begin with it and to contain nothing
    else. -/
def documentOf? (ts : List Token) : Option Document := do
  let (isExplicit, rest, handles) ←
    match ts with
    | [] => none
    | .version _ _ :: _ | .handle _ :: _ | .documentStart :: _ => do
      let (rest, handles) ← Reader.directives? ts false []
      match rest with
      | .documentStart :: rest => pure (true, rest, handles)
      | _ => none
    | _ => pure (false, ts, [])
  let r : Reader := ⟨rest, {}, handles ++ defaultHandles⟩
  let isMissing : Bool :=
    match rest with
    | [] | .version _ _ :: _ | .handle _ :: _ | .documentStart :: _ | .documentEnd :: _ => true
    | _ => false
  let (root, r) ←
    if isExplicit && isMissing then pure (Node.empty, r)
    else r.node? (readingFuel rest) true false
  if r.rest.all (· == .documentEnd) then pure ⟨root, r.anchors⟩ else none

/-- The only document of a text, if the text can be read. -/
def parse? (text : String) : Option Document := do documentOf? (← tokens? text)

end XmlHighlight.Yaml
