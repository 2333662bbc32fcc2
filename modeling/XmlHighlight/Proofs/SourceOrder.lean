import XmlHighlight.Proofs.ElementTags

/-!
# Source order — elements in the text, and elements out of entities

What comes out of an entity begins before all that is read in the text, since the values of entities
stand in the document type. Among the nodes in an element those that begin in an entity count for
nothing, and the others stand in order behind its start tag. They end before its end tag, if that
stands in the text; an entity may also close an element that it has not opened. The same can be said
of the nodes that lie directly in a document, and while it is being read.

* `InEntity`, `EntitiesBefore` — the values of entities, and where they stand;
* `NodesInOrder` — nodes in order, with nodes that come out of entities between them;
* `LevelsInOrder`, `Xml.Tree.InOrder` — a document under construction in order;
* `Xml.Tree.InOrder.addShown`, `Xml.Tree.InOrder.openShown`, `Xml.Tree.InOrder.closeElement` — what
  is read in the text itself;
* `Xml.Tree.InOrder.addHidden`, `Xml.Tree.InOrder.openHidden`, `Xml.Tree.InOrder.closeInEntity` —
  what is read in an entity.
-/

namespace XmlHighlight

open Xml

variable (s : Source) (R : Nat) (entities : Array Entity)

/-! ### The values of entities -/

/-- An offset lies in the value of an entity. -/
def InEntity (i : Nat) : Prop :=
  ∃ entity ∈ entities, entity.value.start ≤ i ∧ i < entity.value.stop

instance (i : Nat) : Decidable (InEntity entities i) :=
  decidable_of_iff
      (entities.any fun entity => decide (entity.value.start ≤ i ∧ i < entity.value.stop)) <| by
    simp only [Array.any_eq_true', decide_eq_true_eq]
    rfl

/-- The values of entities stand before offset `R`, each of them before a quote. -/
def EntitiesBefore : Prop :=
  ∀ entity ∈ entities, IsQuoted s entity.value ∧ entity.value.stop < R

variable {s R entities} {i : Nat}

/-- There is room for the quote behind what lies in the value of an entity. -/
theorem EntitiesBefore.lt (h : EntitiesBefore s R entities) (hi : InEntity entities i) :
    i + 1 < R := by
  obtain ⟨entity, hmem, -, hlt⟩ := hi
  exact Nat.lt_of_le_of_lt hlt (h entity hmem).2

/-- Nothing from offset `R` on lies in an entity. -/
theorem EntitiesBefore.not_inEntity (h : EntitiesBefore s R entities) (hi : R ≤ i) :
    ¬ InEntity entities i := by
  intro hin
  have := h.lt hin
  omega

/-! ### Order -/

/-- The offset of the token of a node that is no element: a comment is known by its body. -/
def leafOffset (kind : NodeKind) (extent : Extent) : Nat :=
  if kind = .comment then extent.start + 4 else extent.start

variable (s R entities)

/-- Nodes stand one after the other from offset `lo` on and before offset `hi`, and those of them
    that are elements from offset `R` on. About nodes that begin in an entity it is only said that
    they hold nothing unless they are elements. -/
inductive NodesInOrder : Nat → List Node → Nat → Prop where
  | nil {lo hi : Nat} (le : lo ≤ hi) : NodesInOrder lo [] hi
  | hidden {lo hi : Nat} {n : Node} {later : List Node}
      (inEntity : InEntity entities n.extent.start)
      (childless : n.isElement = false → n.children = []) (rest : NodesInOrder lo later hi) :
      NodesInOrder lo (n :: later) hi
  | leaf {lo hi : Nat} {kind : NodeKind} {extent : Extent} {later : List Node}
      (kind_ne : ∀ values, kind ≠ .element values) (le_start : lo ≤ extent.start)
      (rest : NodesInOrder (leafOffset kind extent) later hi) :
      NodesInOrder lo (.node kind extent [] :: later) hi
  /-- An empty element, which is a single tag. -/
  | empty {lo hi : Nat} {values : List (Nat × String)} {extent : Extent} {later : List Node}
      {tag : StartTag} (own : R ≤ extent.start) (le_start : lo ≤ extent.start)
      (opened : tag.IsReadAt s extent.start) (ending : tag.ending = .selfClosed)
      (extent_eq : extent = tag.extent) (rest : NodesInOrder extent.stop later hi) :
      NodesInOrder lo (.node (.element values) extent [] :: later) hi
  /-- An element with a start tag, nodes inside it, and an end tag. -/
  | element {lo hi outer : Nat} {values : List (Nat × String)} {extent : Extent}
      {children later : List Node} {tag : StartTag} {closing : EndTag} (own : R ≤ extent.start)
      (le_start : lo ≤ extent.start) (opened : tag.IsReadAt s extent.start)
      (ending : tag.ending = .opened) (inside : NodesInOrder tag.extent.stop children outer)
      (closed : closing.IsReadAt s outer) (name_eq : tag.name = closing.name)
      (stop_eq : extent.stop = closing.extent.stop) (rest : NodesInOrder extent.stop later hi) :
      NodesInOrder lo (.node (.element values) extent children :: later) hi
  /-- An element with a start tag and nodes inside it that an entity has closed. -/
  | broken {lo hi outer : Nat} {values : List (Nat × String)} {extent : Extent}
      {children later : List Node} {tag : StartTag} (own : R ≤ extent.start)
      (le_start : lo ≤ extent.start) (opened : tag.IsReadAt s extent.start)
      (ending : tag.ending = .opened) (inside : NodesInOrder tag.extent.stop children outer)
      (closed : InEntity entities (extent.stop - 1)) (stop_lt : extent.stop < extent.start)
      (rest : NodesInOrder outer later hi) :
      NodesInOrder lo (.node (.element values) extent children :: later) hi

/-- The levels of open elements stand in order from offset `R` on, behind the nodes that lie
    directly in the document, up to offset `hi`. -/
inductive LevelsInOrder (top : List Node) : List Level → Nat → Prop where
  | top {hi : Nat} (own : R ≤ hi) (nodes : NodesInOrder s R entities 0 top.reverse hi) :
      LevelsInOrder top [] hi
  | level {hi outer : Nat} {element : OpenElement} {children : List Node} {levels : List Level}
      {tag : StartTag} (outside : LevelsInOrder top levels outer) (le_start : outer ≤ element.start)
      (opened : tag.IsReadAt s element.start) (ending : tag.ending = .opened)
      (name_eq : element.name = tag.name)
      (inside : NodesInOrder s R entities tag.extent.stop children.reverse hi) :
      LevelsInOrder top (⟨element, children⟩ :: levels) hi

/-- A document under construction is in order up to offset `hi`. -/
inductive Xml.Tree.InOrder (hi : Nat) (t : Xml.Tree) : Prop where
  /-- All open elements begin in the text. -/
  | shown (levels : LevelsInOrder s R entities t.top t.levels hi)
  /-- An entity has opened an element, and what is read goes into it. -/
  | hidden {inner outer : List Level} {opened : Level}
      (levels_eq : t.levels = inner ++ opened :: outer)
      (inEntity : InEntity entities opened.element.start)
      (levels : LevelsInOrder s R entities t.top outer hi)

variable {s R entities} {lo m hi : Nat} {nodes later top : List Node}

/-! ### Tags -/

/-- The name of a start tag stands between its signs. -/
theorem Xml.StartTag.IsReadAt.name_lt {tag : StartTag} (h : tag.IsReadAt s i)
    (hending : tag.IsComplete) :
    i + 1 < tag.nameExtent.stop ∧ tag.nameExtent.stop < tag.extent.stop := by
  obtain ⟨-, -, _, rest, -, htag⟩ := h.standsAt hending
  exact ⟨htag.name.lt, htag.rest.byte?_stop.1⟩

/-- The name of an end tag stands between its signs. -/
theorem Xml.EndTag.IsReadAt.name_lt {tag : EndTag} (h : tag.IsReadAt s i) :
    i + 2 < tag.nameExtent.stop ∧ tag.nameExtent.stop < tag.extent.stop := by
  obtain ⟨-, -, _, close, hstop, htag⟩ := h.standsAt
  exact ⟨htag.name.lt, hstop ▸ Nat.lt_succ_of_le htag.name_le⟩

/-- An element that is a single tag is not empty of text. -/
theorem Xml.StartTag.IsReadAt.start_lt {tag : StartTag} {extent : Extent}
    (h : tag.IsReadAt s extent.start) (hending : tag.ending = .selfClosed)
    (heq : extent = tag.extent) : extent.start < extent.stop := by
  have := h.name_lt (.inr hending)
  rw [← heq] at this
  omega

/-! ### Nodes in order -/

/-- The offset that a leaf is reported at is not before its start. -/
theorem start_le_leafOffset (kind : NodeKind) (extent : Extent) :
    extent.start ≤ leafOffset kind extent := by
  unfold leafOffset
  split <;> omega

namespace NodesInOrder

/-- Nodes in order take up room. -/
theorem le (h : NodesInOrder s R entities lo nodes hi) : lo ≤ hi := by
  induction h with
  | nil le => exact le
  | hidden _ _ _ ih => exact ih
  | @leaf _ _ kind extent _ _ _ _ ih =>
    have := start_le_leafOffset kind extent
    omega
  | empty _ _ opened ending extent_eq _ ih =>
    have := opened.start_lt ending extent_eq
    omega
  | element _ _ opened ending _ closed _ stop_eq _ ihinside ih =>
    have := opened.name_lt (.inl ending)
    have := closed.name_lt
    omega
  | broken _ _ opened ending _ _ _ _ ihinside ih =>
    have := opened.name_lt (.inl ending)
    omega

/-- An element with a start tag, nodes in order, and an end tag takes up text. -/
theorem start_lt {extent : Extent} {tag : StartTag} {closing : EndTag}
    (h : NodesInOrder s R entities tag.extent.stop nodes m) (opened : tag.IsReadAt s extent.start)
    (ending : tag.ending = .opened) (closed : closing.IsReadAt s m)
    (stop_eq : extent.stop = closing.extent.stop) : extent.start < extent.stop := by
  have := h.le
  have := opened.name_lt (.inl ending)
  have := closed.name_lt
  omega

/-- Nodes behind an offset are behind an earlier one. -/
theorem mono_left {lo' : Nat} (h : NodesInOrder s R entities lo nodes hi) (hle : lo' ≤ lo) :
    NodesInOrder s R entities lo' nodes hi := by
  induction h with
  | nil le => exact .nil (Nat.le_trans hle le)
  | hidden inEntity childless _ ih => exact .hidden inEntity childless (ih hle)
  | leaf kind_ne le_start rest _ => exact .leaf kind_ne (Nat.le_trans hle le_start) rest
  | empty own le_start opened ending extent_eq rest _ =>
    exact .empty own (Nat.le_trans hle le_start) opened ending extent_eq rest
  | element own le_start opened ending inside closed name_eq stop_eq rest _ _ =>
    exact .element own (Nat.le_trans hle le_start) opened ending inside closed name_eq stop_eq rest
  | broken own le_start opened ending inside closed stop_lt rest _ _ =>
    exact .broken own (Nat.le_trans hle le_start) opened ending inside closed stop_lt rest

/-- Nodes can be put behind others that end before them. -/
theorem append (h : NodesInOrder s R entities lo nodes m)
    (h' : NodesInOrder s R entities m later hi) :
    NodesInOrder s R entities lo (nodes ++ later) hi := by
  induction h with
  | nil le => exact h'.mono_left le
  | hidden inEntity childless _ ih => exact .hidden inEntity childless (ih h')
  | leaf kind_ne le_start _ ih => exact .leaf kind_ne le_start (ih h')
  | empty own le_start opened ending extent_eq _ ih =>
    exact .empty own le_start opened ending extent_eq (ih h')
  | element own le_start opened ending inside closed name_eq stop_eq _ _ ih =>
    exact .element own le_start opened ending inside closed name_eq stop_eq (ih h')
  | broken own le_start opened ending inside closed stop_lt _ _ ih =>
    exact .broken own le_start opened ending inside closed stop_lt (ih h')

/-- Nodes before an offset are before a later one. -/
theorem mono (h : NodesInOrder s R entities lo nodes m) (hle : m ≤ hi) :
    NodesInOrder s R entities lo nodes hi := by
  have hnone : NodesInOrder s R entities m [] hi := .nil hle
  simpa using h.append hnone

end NodesInOrder

/-! ### Levels in order -/

namespace LevelsInOrder

variable {level : Level} {outer levels : List Level}

theorem le (h : LevelsInOrder s R entities top levels hi) : R ≤ hi := by
  induction h with
  | top own => exact own
  | level _ _ opened ending _ inside ih =>
    have := opened.name_lt (.inl ending)
    have := inside.le
    omega

/-- No open element begins before offset `R`. -/
theorem le_start (h : LevelsInOrder s R entities top (level :: outer) hi) :
    R ≤ level.element.start := by
  cases h with
  | level outside le_start => exact Nat.le_trans outside.le le_start

theorem mono (h : LevelsInOrder s R entities top levels m) (hle : m ≤ hi) :
    LevelsInOrder s R entities top levels hi := by
  cases h with
  | top own nodes => exact .top (Nat.le_trans own hle) (nodes.mono hle)
  | level outside le_start opened ending name_eq inside =>
    exact .level outside le_start opened ending name_eq (inside.mono hle)

/-- A node can be added that is in order behind the others. -/
theorem addNode {t : Xml.Tree} {node : Node} (h : LevelsInOrder s R entities t.top t.levels m)
    (hnode : NodesInOrder s R entities m [node] hi) :
    LevelsInOrder s R entities (t.addNode node).top (t.addNode node).levels hi := by
  cases hlevels : t.levels with
  | nil =>
    rw [hlevels] at h
    obtain ⟨htop, hnil⟩ := addNode_of_nil node hlevels
    cases h with
    | top own nodes =>
      have happend := nodes.append hnode
      rw [← List.reverse_cons] at happend
      rw [htop, hnil]
      exact .top (Nat.le_trans own hnode.le) happend
  | cons level outer =>
    rw [hlevels] at h
    obtain ⟨htop, hadded⟩ := addNode_of_cons node hlevels
    cases h with
    | level outside le_start opened ending name_eq inside =>
      have happend := inside.append hnode
      rw [← List.reverse_cons] at happend
      rw [htop, hadded]
      exact .level outside le_start opened ending name_eq happend

end LevelsInOrder

/-! ### Documents under construction -/

variable {t t' : Xml.Tree} {node : Node} {level : Level} {outer : List Level}

namespace Xml.Tree.InOrder

theorem congr (h : t.InOrder s R entities hi) (htop : t'.top = t.top)
    (hlevels : t'.levels = t.levels) : t'.InOrder s R entities hi := by
  cases h with
  | shown levels =>
    rw [← htop, ← hlevels] at levels
    exact .shown levels
  | hidden levels_eq inEntity levels =>
    rw [← htop] at levels
    exact .hidden (hlevels.trans levels_eq) inEntity levels

theorem mono (h : t.InOrder s R entities m) (hle : m ≤ hi) : t.InOrder s R entities hi := by
  cases h with
  | shown levels => exact .shown (levels.mono hle)
  | hidden levels_eq inEntity levels => exact .hidden levels_eq inEntity (levels.mono hle)

/-- Any node can be added inside an element that comes out of an entity. -/
theorem addInHidden {inner : List Level} {opened : Level}
    (hlevels : t.levels = inner ++ opened :: outer)
    (hopened : InEntity entities opened.element.start)
    (horder : LevelsInOrder s R entities t.top outer hi) (node : Node) :
    (t.addNode node).InOrder s R entities hi := by
  cases inner with
  | nil =>
    obtain ⟨hsame, hadded⟩ := addNode_of_cons node hlevels
    rw [← hsame] at horder
    rw [← List.nil_append (_ :: outer)] at hadded
    exact .hidden hadded hopened horder
  | cons innermost inner =>
    rw [List.cons_append] at hlevels
    obtain ⟨hsame, hadded⟩ := addNode_of_cons node hlevels
    rw [← hsame] at horder
    rw [← List.cons_append] at hadded
    exact .hidden hadded hopened horder

/-- A node that stands behind what has been read can be added. -/
theorem addShown (h : t.InOrder s R entities m) (hnode : NodesInOrder s R entities m [node] hi) :
    (t.addNode node).InOrder s R entities hi := by
  cases h with
  | shown levels => exact .shown (levels.addNode hnode)
  | hidden levels_eq inEntity levels =>
    exact addInHidden levels_eq inEntity (levels.mono hnode.le) node

/-- What comes out of an entity can be added. -/
theorem addHidden (h : t.InOrder s R entities hi) (hnode : InEntity entities node.extent.start)
    (hchildless : node.isElement = false → node.children = []) :
    (t.addNode node).InOrder s R entities hi :=
  h.addShown (.hidden hnode hchildless (.nil (Nat.le_refl hi)))

/-- A start tag that stands behind what has been read opens an element. -/
theorem openShown {element : OpenElement} {tag : StartTag} (h : t.InOrder s R entities m)
    (hle : m ≤ element.start) (hread : tag.IsReadAt s element.start)
    (hending : tag.ending = .opened)
    (hname : element.name = tag.name) (htop : t'.top = t.top)
    (hopened : t'.levels = ⟨element, []⟩ :: t.levels) :
    t'.InOrder s R entities tag.extent.stop := by
  have hlt := hread.name_lt (.inl hending)
  cases h with
  | shown levels =>
    have hnone : NodesInOrder s R entities tag.extent.stop [].reverse tag.extent.stop :=
      .nil (Nat.le_refl _)
    have hlevels := LevelsInOrder.level levels hle hread hending hname hnone
    rw [← htop, ← hopened] at hlevels
    exact .shown hlevels
  | hidden levels_eq inEntity levels =>
    rw [levels_eq, ← List.cons_append] at hopened
    rw [← htop] at levels
    exact .hidden hopened inEntity (levels.mono (by omega))

/-- An entity opens an element, whatever its start tag is. -/
theorem openHidden {element : OpenElement} (h : t.InOrder s R entities hi)
    (hstart : InEntity entities element.start) (htop : t'.top = t.top)
    (hopened : t'.levels = ⟨element, []⟩ :: t.levels) : t'.InOrder s R entities hi := by
  cases h with
  | shown levels =>
    rw [← List.nil_append (_ :: t.levels)] at hopened
    rw [← htop] at levels
    exact .hidden hopened hstart levels
  | hidden levels_eq inEntity levels =>
    rw [levels_eq, ← List.cons_append] at hopened
    rw [← htop] at levels
    exact .hidden hopened inEntity levels

/-- An element is closed that comes out of an entity, or lies inside one that does. -/
theorem closeHidden {inner rest : List Level} {innermost opened : Level}
    (hlevels : t.levels = inner ++ opened :: outer)
    (hopened : InEntity entities opened.element.start)
    (horder : LevelsInOrder s R entities t.top outer hi) (hclosed : t.levels = innermost :: rest)
    (hsame : t'.top = t.top) (hrest : t'.levels = rest) (helement : node.isElement = true)
    (hnode : node.extent.start = innermost.element.start) :
    (t'.addNode node).InOrder s R entities hi := by
  rw [← hsame] at horder
  cases inner with
  | nil =>
    rw [hlevels, List.nil_append] at hclosed
    obtain ⟨rfl, rfl⟩ := List.cons.inj hclosed
    rw [← hrest] at horder
    have hshown : t'.InOrder s R entities hi := .shown horder
    exact hshown.addHidden (hnode ▸ hopened) fun hnone => by simp [hnone] at helement
  | cons first inner =>
    rw [hlevels, List.cons_append] at hclosed
    obtain ⟨rfl, rfl⟩ := List.cons.inj hclosed
    exact addInHidden hrest hopened horder node

/-- An end tag that stands behind what has been read closes an element. -/
theorem closeElement {element : OpenElement} {children : List Node} {rest : List Level}
    {closing : EndTag} (h : t.InOrder s R entities m)
    (hclosed : t.levels = ⟨element, children⟩ :: rest) (hread : closing.IsReadAt s m)
    (hname : element.name = closing.name) (hsame : t'.top = t.top) (hrest : t'.levels = rest)
    (values : List (Nat × String)) (heq : node =
      .node (.element values) ⟨element.start, closing.extent.stop⟩ children.reverse) :
    (t'.addNode node).InOrder s R entities closing.extent.stop := by
  have hlt := hread.name_lt
  cases h with
  -- An element of the source is closed behind all that was read in it.
  | shown levels =>
    rw [hclosed] at levels
    have hown := levels.le_start
    cases levels with
    | @level _ last _ _ _ tag outside le_start opened ending name_eq inside =>
      have hnode : NodesInOrder s R entities last [node] closing.extent.stop := by
        rw [heq]
        exact .element hown le_start opened ending inside hread (name_eq.symm.trans hname) rfl
          (.nil (Nat.le_refl _))
      rw [← hsame, ← hrest] at outside
      exact .shown (outside.addNode hnode)
  | hidden levels_eq inEntity levels =>
    exact closeHidden levels_eq inEntity (levels.mono (by omega)) hclosed hsame hrest
      (by rw [heq]; rfl) (by rw [heq]; rfl)

/-- An end tag in an entity closes an element, which may begin in the text. -/
theorem closeInEntity {element : OpenElement} {children : List Node} {rest : List Level}
    {stop : Nat}
    (hentities : EntitiesBefore s R entities) (h : t.InOrder s R entities hi)
    (hclosed : t.levels = ⟨element, children⟩ :: rest) (hstop : InEntity entities (stop - 1))
    (hsame : t'.top = t.top) (hrest : t'.levels = rest) (values : List (Nat × String))
    (heq : node = .node (.element values) ⟨element.start, stop⟩ children.reverse) :
    (t'.addNode node).InOrder s R entities hi := by
  have hlt := hentities.lt hstop
  cases h with
  | shown levels =>
    rw [hclosed] at levels
    have hown := levels.le_start
    cases levels with
    | @level _ last _ _ _ tag outside le_start opened ending name_eq inside =>
      have hnode : NodesInOrder s R entities last [node] hi := by
        rw [heq]
        -- The end tag stands in the value of an entity, before the content that it closes.
        refine .broken hown le_start opened ending inside hstop ?_ (.nil (Nat.le_refl _))
        show stop < element.start
        have hle : R ≤ element.start := hown
        omega
      rw [← hsame, ← hrest] at outside
      exact .shown (outside.addNode hnode)
  | hidden levels_eq inEntity levels =>
    exact closeHidden levels_eq inEntity levels hclosed hsame hrest (by rw [heq]; rfl)
      (by rw [heq]; rfl)

end Xml.Tree.InOrder

end XmlHighlight
