import XmlHighlight.Proofs.DocumentLayout

/-!
# Markup — what reading content keeps

Content is read piece by piece, and an entity contributes pieces of its own, which are read in the
same way. So a property of a document under construction that no piece breaks is kept by all
content, however deep its entities go.

* `MarkupKeeps` — a property that no piece breaks, where pieces are read in certain places only;
* `add_keeps` — a piece of markup keeps it;
* `expandIn`, `content_eq` — what an entity contributes;
* `content_keeps`, `expandIn_keeps` — all content keeps it, and so does an entity;
* `Xml.Node.Everywhere`, `Xml.Tree.Everywhere` — a property of all nodes in a node, or in a
  document;
* `everywhere_iff` — of a node it can be decided.
-/

namespace XmlHighlight

open Xml

variable (s : Source) (entities : Array Entity)

/-- A property of a document under construction that no piece of markup breaks. The pieces are read
    in places known by their limit and their beginning. -/
structure MarkupKeeps (place : Nat → Nat → Prop) (P : Xml.Tree → Prop) : Prop where
  congr : ∀ {t t' : Xml.Tree}, P t → t'.top = t.top → t'.levels = t.levels → P t'
  leaf : ∀ {stop : Nat} {t : Xml.Tree} {kind : NodeKind} {extent : Extent},
    place stop extent.start →
    (∀ values, kind ≠ .element values) → P t → P (t.addNode (.node kind extent []))
  startTag : ∀ {stop i room : Nat} {t t' : Xml.Tree} {r : Found i StartTag}, place stop i →
    s.byte? i = some (byteOf '<') → readStartTag s stop i = .ok r → P t →
    t.startTag s entities room r.value = .ok t' → P t'
  endTag : ∀ {stop i : Nat} {t t' : Xml.Tree} {r : Found i EndTag}, place stop i →
    s.byte? i = some (byteOf '<') → s.byte? (i + 1) = some (byteOf '/') →
    readEndTag s stop i = .ok r →
    P t → t.endTag r.value = .ok t' → P t'

variable {s entities} {place : Nat → Nat → Prop} {P : Xml.Tree → Prop} {t t' : Xml.Tree}
  {stop i j : Nat}
  {expand : Nat → Extent → Xml.Tree → Except SyntaxError Xml.Tree}

/-! ### One piece of markup -/

namespace MarkupKeeps

/-- What markup keeps is kept by a leaf. -/
theorem addLeaf (hkeeps : MarkupKeeps s entities place P) {kind : NodeKind} {extent : Extent}
    (hplace : place stop extent.start) (hkind : ∀ values, kind ≠ .element values) (ht : P t) :
    P (t.addLeaf kind extent) :=
  hkeeps.congr (hkeeps.leaf hplace hkind ht) rfl rfl

/-- What markup keeps is kept by text, which joins the text before it or is a leaf. -/
theorem appendText (hkeeps : MarkupKeeps s entities place P) {extent : Extent}
    (hplace : place stop extent.start) (ht : P t) : P (t.appendText extent) := by
  unfold Tree.appendText
  split
  · exact ht
  · have hkind : ∀ values, NodeKind.text ≠ .element values := by simp
    exact hkeeps.congr (hkeeps.leaf hplace hkind ht) rfl rfl

end MarkupKeeps

/-- What keeps a property as long as the entities of a document contribute it. -/
def ExpandKeeps (entities : Array Entity) (P : Xml.Tree → Prop)
    (expand : Nat → Extent → Xml.Tree → Except SyntaxError Xml.Tree) : Prop :=
  ∀ {k : Nat} {entity : Entity} {t t' : Xml.Tree}, entity ∈ entities → P t →
    expand k entity.value t = .ok t' → P t'

/-- A run of text adds pieces of text and what its entities contribute. -/
theorem addText_keeps {whole : Extent} {nonempty : Bool} (hexpand : ExpandKeeps entities P expand)
    (hpiece : ∀ {t : Xml.Tree}, P t → P (t.appendText whole)) (ht : P t)
    (h : t.addText s entities expand whole i nonempty = .ok t') : P t' := by
  -- What is between two entities is a piece of text if there is anything.
  have hsome : ∀ (t : Xml.Tree) (nonempty : Bool), P t →
      P (if nonempty = true then t.appendText whole else t) := by
    intro t nonempty ht
    split
    · exact hpiece ht
    · exact ht
  fun_induction Tree.addText s entities expand whole i nonempty t with
  | case1 | case3 | case5 => cases h
  | case2 _ _ _ _ _ _ _ _ _ _ ih => exact ih ht h
  | case4 i nonempty t _ j some_text hj name k hk _ entity hentity t₁ hadded ih =>
    have hmem : entity ∈ entities := Array.mem_of_find?_eq_some hentity
    exact ih (hexpand hmem (hsome t some_text ht) hadded) h
  | case6 i nonempty t _ j some_text hj =>
    cases h
    exact hsome t some_text ht

/-- **Step.** A piece of markup keeps what no piece breaks. -/
theorem add_keeps {room : Nat} {r : Found i Markup} (hkeeps : MarkupKeeps s entities place P)
    (hexpand : ExpandKeeps entities P expand) (hplace : place stop i)
    (hread : readMarkup s stop i = .ok r) (ht : P t)
    (h : t.add s entities expand room r.value = .ok t') : P t' := by
  obtain ⟨value, next, hlt⟩ := r
  have hadds : Adds s entities expand room stop i t t' value next := add_cases hread h
  cases hadds with
  | comment _ _ eq => exact eq ▸ hkeeps.addLeaf hplace (by simp) ht
  | cdata start_eq eq => exact eq ▸ hkeeps.appendText (start_eq ▸ hplace) ht
  | instruction start_eq eq => exact eq ▸ hkeeps.addLeaf (start_eq ▸ hplace) (by simp) ht
  | endTag opening slash read eq => exact hkeeps.endTag hplace opening slash read ht eq
  | startTag opening read eq => exact hkeeps.startTag hplace opening read ht eq
  | text start_eq eq => exact addText_keeps hexpand (hkeeps.appendText (start_eq ▸ hplace)) ht eq

/-! ### Content -/

/-- What an entity contributes where so many more entities may be opened inside it. -/
def expandIn (s : Source) (entities : Array Entity) :
    (room : Nat) → Nat → Extent → Xml.Tree → Except SyntaxError Xml.Tree
  | 0, k, _, _ => refuse .entityLoop k
  | room + 1, k, value, t => do
    let expansions ← countEntity (room + 1) t.expansions k
    let (inner, _) ← content s entities room value.stop value.start
      { t with sawTag := false, expansions }
    return { inner with
      sawTag := t.sawTag
      expansions := recountEntities (room + 1) inner.expansions }

/-- The content of an element is read with its entities expanded in the room that is left. -/
theorem content_eq (room stop i : Nat) (t : Xml.Tree) :
    content s entities room stop i t
      = readContent s entities (expandIn s entities room) room stop i 0 t := by
  cases room <;> rfl

/-- **Run.** Content keeps what no piece breaks, if the entities in it do. -/
theorem content_keeps {room : Nat} (hkeeps : MarkupKeeps s entities place P)
    (hexpand : ExpandKeeps entities P (expandIn s entities room))
    (hplace : ∀ k, i ≤ k → k < stop → place stop k) (ht : P t)
    (h : content s entities room stop i t = .ok (t', j)) : P t' := by
  rw [content_eq] at h
  obtain ⟨-, -, hlast⟩ := readContent_keeps (P := fun k _ t => i ≤ k ∧ P t)
    (fun hk hread hadd ht => ⟨Nat.le_trans ht.1 (Nat.le_of_lt (Found.lt_next _)),
      add_keeps hkeeps hexpand (hplace _ ht.1 hk) hread ht.2 hadd⟩) ⟨Nat.le_refl i, ht⟩ h
  exact hlast

/-- So does what an entity contributes, whatever entities are opened inside it. -/
theorem expandIn_keeps (hkeeps : MarkupKeeps s entities place P)
    (hplace : ∀ entity ∈ entities, ∀ k, entity.value.start ≤ k → k < entity.value.stop →
      place entity.value.stop k) (room : Nat) : ExpandKeeps entities P
        (expandIn s entities room) := by
  -- By induction on how many more entities may be opened: the content of an entity is read with one
  -- less.
  induction room with
  | zero =>
    intro k entity t t' _ _ h
    cases h
  | succ room ih =>
    intro k entity t t' hentity ht h
    rw [expandIn, bind_eq_ok] at h
    obtain ⟨expansions, -, h⟩ := h
    rw [bind_eq_ok] at h
    obtain ⟨⟨inner, _⟩, hinner, h⟩ := h
    cases h
    have hopened : P { t with sawTag := false, expansions } := hkeeps.congr ht rfl rfl
    exact hkeeps.congr (content_keeps hkeeps ih (hplace entity hentity) hopened hinner) rfl rfl

/-! ### Properties of all nodes -/

/-- A property of a node and of all nodes inside it. -/
inductive Xml.Node.Everywhere (P : Node → Prop) : Node → Prop where
  | node {kind : NodeKind} {extent : Extent} {children : List Node}
      (here : P (.node kind extent children))
      (inside : ∀ n ∈ children, Everywhere P n) : Everywhere P (.node kind extent children)

/-- A property of all nodes of a document under construction, and one of its open elements. -/
structure Xml.Tree.Everywhere (P : Node → Prop) (Q : OpenElement → Prop) (t : Xml.Tree) : Prop where
  top : ∀ n ∈ t.top, n.Everywhere P
  levels : ∀ level ∈ t.levels, Q level.element ∧ ∀ n ∈ level.children, n.Everywhere P

variable {p r : Node → Prop} {q : OpenElement → Prop}

theorem Xml.Node.Everywhere.mono {n : Node} (h : n.Everywhere p) (hpr : ∀ n, p n → r n) :
    n.Everywhere r := by
  induction h with
  | node here _ ih => exact .node (hpr _ here) ih

/-- What holds everywhere in a node holds of it and everywhere in its children. -/
theorem everywhere_node_iff {kind : NodeKind} {extent : Extent} {children : List Node} :
    (Node.node kind extent children).Everywhere p ↔
      p (.node kind extent children) ∧ ∀ n ∈ children, n.Everywhere p := by
  refine ⟨fun h => ?_, fun h => .node h.1 h.2⟩
  cases h with
  | node here inside => exact ⟨here, inside⟩

mutual

/-- Whether something holds of a node and of all nodes inside it. -/
def Xml.Node.everywhere (p : Node → Bool) : Node → Bool
  | .node kind extent children => p (.node kind extent children) && everywhereIn p children

/-- Whether it holds of some nodes and of all nodes inside them. -/
def everywhereIn (p : Node → Bool) : List Node → Bool
  | [] => true
  | n :: later => n.everywhere p && everywhereIn p later

end

theorem everywhereIn_iff {p : Node → Bool} {nodes : List Node} :
    everywhereIn p nodes = true ↔ ∀ n ∈ nodes, n.everywhere p = true := by
  induction nodes with
  | nil => exact ⟨fun _ => List.forall_mem_nil _, fun _ => rfl⟩
  | cons n later ih => rw [everywhereIn, Bool.and_eq_true, ih, List.forall_mem_cons]

/-- What a walk through the tree has checked holds everywhere in it. -/
theorem Xml.Node.Everywhere.of_check [DecidablePred p] :
    ∀ n : Node, n.everywhere (fun n => decide (p n)) = true → n.Everywhere p
  | .node kind extent children, h => by
    rw [Node.everywhere, Bool.and_eq_true, decide_eq_true_iff, everywhereIn_iff] at h
    exact .node h.1 fun n hn => of_check n (h.2 n hn)

theorem everywhere_iff [DecidablePred p] {n : Node} :
    n.everywhere (fun n => decide (p n)) = true ↔ n.Everywhere p := by
  refine ⟨Node.Everywhere.of_check n, fun h => ?_⟩
  induction h with
  | node here _ ih =>
    rw [Node.everywhere, Bool.and_eq_true, everywhereIn_iff]
    exact ⟨decide_eq_true here, ih⟩

instance [DecidablePred p] (n : Node) : Decidable (n.Everywhere p) :=
  decidable_of_iff _ everywhere_iff

theorem everywhere_empty : Tree.empty.Everywhere p q :=
  ⟨List.forall_mem_nil _, List.forall_mem_nil _⟩

theorem Xml.Tree.Everywhere.congr (h : t.Everywhere p q) (htop : t'.top = t.top)
    (hlevels : t'.levels = t.levels) : t'.Everywhere p q := by
  refine ⟨?_, ?_⟩
  · rw [htop]
    exact h.top
  · rw [hlevels]
    exact h.levels

/-- It holds of a document with one more node if it holds of the document and in the node. -/
theorem everywhere_addNode {node : Node} :
    (t.addNode node).Everywhere p q ↔ t.Everywhere p q ∧ node.Everywhere p := by
  obtain ⟨top, levels, pending, sawTag, afterText, expansions⟩ := t
  cases levels with
  | nil =>
    refine ⟨fun h => ?_, fun h => ⟨List.forall_mem_cons.mpr ⟨h.2, h.1.top⟩, h.1.levels⟩⟩
    obtain ⟨hnode, htop⟩ := List.forall_mem_cons.mp h.top
    exact ⟨⟨htop, h.levels⟩, hnode⟩
  | cons level outer =>
    constructor
    · intro h
      obtain ⟨⟨helement, hchildren⟩, houter⟩ := List.forall_mem_cons.mp h.levels
      obtain ⟨hnode, hchildren⟩ := List.forall_mem_cons.mp hchildren
      exact ⟨⟨h.top, List.forall_mem_cons.mpr ⟨⟨helement, hchildren⟩, houter⟩⟩, hnode⟩
    · rintro ⟨h, hnode⟩
      obtain ⟨⟨helement, hchildren⟩, houter⟩ := List.forall_mem_cons.mp h.levels
      refine ⟨h.top, List.forall_mem_cons.mpr ⟨⟨helement, ?_⟩, houter⟩⟩
      exact List.forall_mem_cons.mpr ⟨hnode, hchildren⟩

/-- It holds of a document with an element opened in it if it holds of the document and the
    element. -/
theorem everywhere_open (t : Xml.Tree) (element : OpenElement) (pending : Pending)
    (afterText : Bool) :
    ({ t with pending, afterText, levels := ⟨element, []⟩ :: t.levels } : Xml.Tree).Everywhere p q ↔
      t.Everywhere p q ∧ q element := by
  constructor
  · rintro ⟨htop, hlevels⟩
    obtain ⟨⟨helement, -⟩, hlevels⟩ := List.forall_mem_cons.mp hlevels
    exact ⟨⟨htop, hlevels⟩, helement⟩
  · rintro ⟨⟨htop, hlevels⟩, helement⟩
    exact ⟨htop, List.forall_mem_cons.mpr ⟨⟨helement, List.forall_mem_nil _⟩, hlevels⟩⟩

/-- It holds of a document in which an element has been closed if it holds of the document and of
    the element. -/
theorem everywhere_close {t : Xml.Tree} {element : OpenElement} {children : List Node}
    {outer : List Level}
    (hlevels : t.levels = ⟨element, children⟩ :: outer) (helement : q element)
    (values : List (Nat × String)) (extent : Extent) (pending : Pending) (afterText : Bool) :
    (Tree.addNode { t with pending, afterText, levels := outer }
        (.node (.element values) extent children.reverse)).Everywhere p q ↔
      t.Everywhere p q ∧ p (.node (.element values) extent children.reverse) := by
  rw [everywhere_addNode, everywhere_node_iff]
  simp only [List.mem_reverse]
  constructor
  · rintro ⟨⟨htop, houter⟩, hhere, hinside⟩
    refine ⟨⟨htop, ?_⟩, hhere⟩
    rw [hlevels]
    exact List.forall_mem_cons.mpr ⟨⟨helement, hinside⟩, houter⟩
  · rintro ⟨⟨htop, hall⟩, hhere⟩
    rw [hlevels] at hall
    obtain ⟨⟨-, hinside⟩, houter⟩ := List.forall_mem_cons.mp hall
    exact ⟨⟨htop, houter⟩, hhere, hinside⟩

end XmlHighlight
