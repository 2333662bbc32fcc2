import XmlHighlight.Proofs.SourceOrder
import XmlHighlight.Proofs.TagsAsWritten

/-!
# Strays — what a walk comes to out of an entity

What comes out of an entity begins before the element that it has been put into, and a walk passes
over it for that reason. Beside the root element there is no element to compare it with, so a walk
stops at what an entity puts there, and perhaps at what is inside it. These steps are strays, and
the other steps of a walk are its own.

* `Step.nodes`, `Step.isStray`, `ownSteps` — steps that have to do with an entity, and all others;
* `ownSteps_visitNode`, `ownSteps_eq_nil` — the steps of its own that a walk makes through a node;
* `NodesInOrder.visited` — a walk through nodes in order strays nowhere inside them;
* `NodesInOrder.exists_stray`, `NodesInOrder.beginsOutside` — where it strays instead, and where it
  makes steps of its own.
-/

namespace XmlHighlight

open Xml

variable {s : Source} {R lo hi : Nat} {entities : Array Entity} {step : Step}
  {above : List (Node × List Node)} {n : Node} {siblings children later : List Node}
  {values : List (Nat × String)} {extent : Extent}

/-! ### Nodes that a walk passes over -/

/-- A node that was made by an entity is stepped over. -/
theorem visitNode_expanded (later : List Node) (h : isExpanded above n = true) :
    visitNode above later n = [] := by
  obtain ⟨kind, extent, children⟩ := n
  rw [visitNode, if_pos h]

/-- What begins before its parent comes out of an entity. -/
theorem isExpanded_of_lt {c : Node} (h : c.extent.start < extent.start) :
    isExpanded ((.node (.element values) extent children, later) :: above) c = true := by
  rw [isExpanded, Bool.and_eq_true, Bool.or_eq_true]
  exact ⟨rfl, .inl (decide_eq_true h)⟩

/-- The node at which a walk stops, and the nodes that it lies in. -/
def Step.nodes : Step → List Node
  | .enter place => place.node :: place.above.map Prod.fst
  | .leave place => place.node :: place.above.map Prod.fst

/-- A walk through a node comes to nothing that does not lie in this node, and in the nodes
    above. -/
theorem mem_nodes_of_mem_visitNode : ∀ (n : Node) (above : List (Node × List Node))
    (later : List Node), ∀ step ∈ visitNode above later n, ∀ m ∈ n :: above.map Prod.fst,
      m ∈ step.nodes
  | .node kind extent children, above, later, step, hstep, m, hm => by
    cases hexpanded : isExpanded above (.node kind extent children) with
    | true =>
      rw [visitNode_expanded later hexpanded] at hstep
      exact absurd hstep List.not_mem_nil
    | false =>
      rw [visitNode_eq later hexpanded, List.mem_cons, List.mem_append, List.mem_singleton] at hstep
      rcases hstep with rfl | hstep | rfl
      · exact hm
      · obtain ⟨c, rest, hsuffix, hstep⟩ := mem_visitSiblings.mp hstep
        have hchild : c ∈ children := hsuffix.mem List.mem_cons_self
        exact mem_nodes_of_mem_visitNode c _ rest step hstep m (List.mem_cons_of_mem c hm)
      · exact hm
  termination_by n => sizeOf n
  decreasing_by
    have := List.sizeOf_lt_of_mem hchild
    simp only [Node.node.sizeOf_spec]
    omega

/-- What holds of a node, and of all nodes at which a walk through the nodes in it stops, holds of
    all nodes at which a walk through the node stops. -/
theorem nodes_visitNode {Q : Node → Prop} (later : List Node) (hn : Q n)
    (hinside : ∀ c ∈ n.children, ∀ rest, isExpanded ((n, later) :: above) c = false →
      ∀ step ∈ visitNode ((n, later) :: above) rest c, ∀ m ∈ step.nodes,
        m ∈ ((n, later) :: above).map Prod.fst ∨ Q m) :
    ∀ step ∈ visitNode above later n, ∀ m ∈ step.nodes, m ∈ above.map Prod.fst ∨ Q m := by
  intro step hstep m hm
  have hhere : m ∈ n :: above.map Prod.fst → m ∈ above.map Prod.fst ∨ Q m := by
    intro hm
    rcases List.mem_cons.mp hm with rfl | hm
    · exact .inr hn
    · exact .inl hm
  cases hexpanded : isExpanded above n with
  | true =>
    rw [visitNode_expanded later hexpanded] at hstep
    exact absurd hstep List.not_mem_nil
  | false =>
    rw [visitNode_eq later hexpanded, List.mem_cons, List.mem_append, List.mem_singleton] at hstep
    rcases hstep with rfl | hstep | rfl
    · exact hhere hm
    · obtain ⟨c, rest, hsuffix, hstep⟩ := mem_visitSiblings.mp hstep
      cases hchild : isExpanded ((n, later) :: above) c with
      | true =>
        rw [visitNode_expanded rest hchild] at hstep
        exact absurd hstep List.not_mem_nil
      | false =>
        rcases hinside c (hsuffix.mem List.mem_cons_self) rest hchild step hstep m hm with hm | hm
        · exact hhere hm
        · exact .inr hm
    · exact hhere hm

/-! ### Strays -/

/-- A walk has come to a node out of an entity, or to a node inside such a node. -/
def Step.isStray (entities : Array Entity) (step : Step) : Bool :=
  step.nodes.any fun n => decide (InEntity entities n.extent.start)

/-- The steps of a walk that are no strays. -/
def ownSteps (entities : Array Entity) (steps : List Step) : List Step :=
  steps.filter fun step => !step.isStray entities

theorem isStray_iff :
    step.isStray entities = true ↔ ∃ m ∈ step.nodes, InEntity entities m.extent.start := by
  simp [Step.isStray]

theorem isStray_eq_false_iff :
    step.isStray entities = false ↔ ∀ m ∈ step.nodes, ¬ InEntity entities m.extent.start := by
  rw [← Bool.not_eq_true, isStray_iff]
  simp

theorem mem_ownSteps {steps : List Step} :
    step ∈ ownSteps entities steps ↔ step ∈ steps ∧ step.isStray entities = false := by
  rw [ownSteps, List.mem_filter, Bool.not_eq_true']

@[simp] theorem ownSteps_append (steps steps' : List Step) :
    ownSteps entities (steps ++ steps') = ownSteps entities steps ++ ownSteps entities steps' :=
  List.filter_append ..

/-- Inside a node out of an entity all steps are strays. -/
theorem ownSteps_eq_nil (above : List (Node × List Node)) (later : List Node)
    (h : InEntity entities n.extent.start) : ownSteps entities (visitNode above later n) = [] := by
  refine List.filter_eq_nil_iff.mpr fun step hstep => ?_
  have hstray : step.isStray entities = true := isStray_iff.mpr
    ⟨n, mem_nodes_of_mem_visitNode n above later step hstep n List.mem_cons_self, h⟩
  rw [hstray]
  decide

/-- A walk makes two steps of its own at a node outside the entities: it enters the node and leaves
    it. -/
theorem ownSteps_visitNode (later : List Node) (hshown : isExpanded above n = false)
    (hout : ∀ m ∈ n :: above.map Prod.fst, ¬ InEntity entities m.extent.start) :
    ownSteps entities (visitNode above later n) = .enter ⟨n, later, above⟩ ::
      (ownSteps entities (visitSiblings ((n, later) :: above) n.children)
        ++ [.leave ⟨n, later, above⟩]) := by
  have henter : (Step.enter ⟨n, later, above⟩).isStray entities = false :=
    isStray_eq_false_iff.mpr hout
  have hleave : (Step.leave ⟨n, later, above⟩).isStray entities = false :=
    isStray_eq_false_iff.mpr hout
  rw [visitNode_eq later hshown, ownSteps, List.filter_cons_of_pos (by rw [henter]; rfl),
    List.filter_append, List.filter_cons_of_pos (by rw [hleave]; rfl), List.filter_nil]
  rfl

/-! ### Walks through nodes in order -/

/-- A node begins outside the entities, and from offset `R` on if it is an element. -/
def Xml.Node.BeginsOutside (R : Nat) (entities : Array Entity) (n : Node) : Prop :=
  ¬ InEntity entities n.extent.start ∧ (n.isElement = true → R ≤ n.extent.start)

/-- A walk through an element outside the entities strays nowhere in it, if this can be said of the
    nodes in it. -/
theorem visited_element (hentities : EntitiesBefore s R entities) (own : R ≤ extent.start)
    (later : List Node)
    (hinside : ∀ c ∈ children, ¬ InEntity entities c.extent.start → ∀ rest,
      ∀ step ∈ visitNode ((.node (.element values) extent children, later) :: above) rest c,
        ∀ m ∈ step.nodes,
        m ∈ ((.node (.element values) extent children, later) :: above).map Prod.fst
          ∨ m.BeginsOutside R entities) :
    ∀ step ∈ visitNode above later (.node (.element values) extent children), ∀ m ∈ step.nodes,
      m ∈ above.map Prod.fst ∨ m.BeginsOutside R entities := by
  refine nodes_visitNode later ⟨hentities.not_inEntity own, fun _ => own⟩ fun c hc rest hshown => ?_
  refine hinside c hc (fun hin => ?_) rest
  -- A node out of an entity begins before the element, so it would be passed over.
  have hlt := hentities.lt hin
  have hexpanded : isExpanded ((.node (.element values) extent children, later) :: above) c
      = true := isExpanded_of_lt (by omega)
  rw [hexpanded] at hshown
  cases hshown

/-- **Run.** A walk through nodes in order strays nowhere in those of them that begin outside the
    entities. -/
theorem NodesInOrder.visited (hentities : EntitiesBefore s R entities)
    (h : NodesInOrder s R entities lo siblings hi) (above : List (Node × List Node)) :
    ∀ c ∈ siblings, ¬ InEntity entities c.extent.start → ∀ later,
      ∀ step ∈ visitNode above later c, ∀ m ∈ step.nodes,
        m ∈ above.map Prod.fst ∨ m.BeginsOutside R entities := by
  induction h generalizing above with
  | nil => exact List.forall_mem_nil _
  | hidden inEntity _ _ ih =>
    exact List.forall_mem_cons.mpr ⟨fun hout => absurd inEntity hout, ih above⟩
  | @leaf _ _ kind _ _ kind_ne _ _ ih =>
    refine List.forall_mem_cons.mpr ⟨fun hout later => ?_, ih above⟩
    refine nodes_visitNode later ⟨hout, fun helement => ?_⟩ (List.forall_mem_nil _)
    cases kind with
    | element values => exact absurd rfl (kind_ne values)
    | document | text | comment | instruction => cases helement
  | empty own _ _ _ _ _ ih =>
    refine List.forall_mem_cons.mpr ⟨fun _ later => ?_, ih above⟩
    exact visited_element hentities own later (List.forall_mem_nil _)
  | element own _ _ _ _ _ _ _ _ ihinside ih | broken own _ _ _ _ _ _ _ ihinside ih =>
    refine List.forall_mem_cons.mpr ⟨fun _ later => ?_, ih above⟩
    exact visited_element hentities own later (ihinside _)

/-- A walk through a document in order is in a node out of an entity that lies directly in the
    document, or it has nothing to do with entities. -/
theorem NodesInOrder.visited_document (hentities : EntitiesBefore s R entities)
    (h : NodesInOrder s R entities lo children hi) (hstart : ¬ InEntity entities extent.start)
    (hstep : step ∈ visitSiblings [] [.node .document extent children]) :
    (∃ c ∈ children, InEntity entities c.extent.start ∧
      ∃ later, step ∈ visitNode [(.node .document extent children, [])] later c) ∨
    ∀ m ∈ step.nodes, m.BeginsOutside R entities := by
  have hdocument : (Node.node .document extent children).BeginsOutside R entities :=
    ⟨hstart, nofun⟩
  rw [visitSiblings, visitSiblings, List.append_nil, visitNode_eq [] rfl, List.mem_cons,
    List.mem_append, List.mem_singleton] at hstep
  rcases hstep with rfl | hstep | rfl
  · exact .inr (List.forall_mem_singleton.mpr hdocument)
  · obtain ⟨c, later, hsuffix, hstep⟩ := mem_visitSiblings.mp hstep
    have hc : c ∈ children := hsuffix.mem List.mem_cons_self
    by_cases hout : InEntity entities c.extent.start
    · exact .inl ⟨c, hc, hout, later, hstep⟩
    · refine .inr fun m hm => ?_
      rcases h.visited hentities _ c hc hout later step hstep m hm with hm | hm
      · exact List.mem_singleton.mp hm ▸ hdocument
      · exact hm
  · exact .inr (List.forall_mem_singleton.mpr hdocument)

/-- A walk through a document in order strays only at nodes out of an entity that lie directly in
    the document, and inside them. -/
theorem NodesInOrder.exists_stray (hentities : EntitiesBefore s R entities)
    (h : NodesInOrder s R entities lo children hi) (hstart : ¬ InEntity entities extent.start)
    (hstep : step ∈ visitSiblings [] [.node .document extent children])
    (hstray : step.isStray entities = true) :
    ∃ c ∈ children, InEntity entities c.extent.start ∧
      ∃ later, step ∈ visitNode [(.node .document extent children, [])] later c := by
  obtain ⟨m, hm, hin⟩ := isStray_iff.mp hstray
  refine (h.visited_document hentities hstart hstep).resolve_right fun hout => ?_
  exact (hout m hm).1 hin

/-- A walk through a document in order does not stray if no entity has put a node directly into the
    document. -/
theorem NodesInOrder.isStray_eq_false (hentities : EntitiesBefore s R entities)
    (h : NodesInOrder s R entities lo children hi) (hstart : ¬ InEntity entities extent.start)
    (hbeside : ∀ c ∈ children, ¬ InEntity entities c.extent.start)
    (hstep : step ∈ visitSiblings [] [.node .document extent children]) :
    step.isStray entities = false := by
  refine eq_false_of_ne_true fun hstray => ?_
  obtain ⟨c, hc, hin, -⟩ := h.exists_stray hentities hstart hstep hstray
  exact hbeside c hc hin

/-- Elements at which a walk through a document in order makes a step of its own begin from offset
    `R` on. -/
theorem NodesInOrder.beginsOutside (hentities : EntitiesBefore s R entities)
    (h : NodesInOrder s R entities lo children hi) (hstart : ¬ InEntity entities extent.start)
    (hstep : step ∈ ownSteps entities (visitSiblings [] [.node .document extent children])) :
    ∀ m ∈ step.nodes, m.BeginsOutside R entities := by
  obtain ⟨hstep, hown⟩ := mem_ownSteps.mp hstep
  refine (h.visited_document hentities hstart hstep).resolve_left ?_
  rintro ⟨c, -, hin, later, hinside⟩
  refine isStray_eq_false_iff.mp hown c ?_ hin
  exact mem_nodes_of_mem_visitNode c _ later step hinside c List.mem_cons_self

/-- Only elements have nodes inside them. -/
theorem NodesInOrder.childless (h : NodesInOrder s R entities lo siblings hi) :
    ∀ n ∈ siblings, n.isElement = false → n.children = [] := by
  induction h with
  | nil => exact List.forall_mem_nil _
  | hidden _ childless _ ih => exact List.forall_mem_cons.mpr ⟨childless, ih⟩
  | leaf _ _ _ ih => exact List.forall_mem_cons.mpr ⟨fun _ => rfl, ih⟩
  | empty _ _ _ _ _ _ ih | element _ _ _ _ _ _ _ _ _ _ ih | broken _ _ _ _ _ _ _ _ _ ih =>
    exact List.forall_mem_cons.mpr ⟨nofun, ih⟩

end XmlHighlight
