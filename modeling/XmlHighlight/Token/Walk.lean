import XmlHighlight.Xml.Node

/-!
# Walk — a document tree in source order

A walk enters and leaves every node of a tree, one step at a time, and passes over the nodes that
come out of entities.

* `Location`, `Step` — a place in a tree, and what a walk does there;
* `isExpanded` — a node comes out of an entity, since it does not lie inside its parent;
* `Step.next?` — the step that follows a step;
* `Step.remaining` — a bound on the steps that are left, which goes down with every step;
* `foldWalk` — a value carried along a walk.
-/

namespace XmlHighlight

open Xml (Node Extent)

/-- A node, its later siblings, and its ancestors, nearest first, each with its own later
    siblings. -/
structure Location where
  node : Node
  later : List Node
  above : List (Node × List Node)

/-- A step of a walk. -/
inductive Step where
  | enter (place : Location)
  | leave (place : Location)

/-- A node comes out of an entity: its parent is an element, and it begins before its parent or ends
    after it. -/
def isExpanded (above : List (Node × List Node)) (n : Node) : Bool :=
  match above with
  | [] => false
  | (parent, _) :: _ =>
    parent.isElement
      && (n.extent.start < parent.extent.start || parent.extent.stop < n.extent.stop)

namespace Step

/-- Enters the first of some siblings that does not come out of an entity. If there is none, leaves
    their parent; a walk ends where there is no parent. -/
def enterFirst (above : List (Node × List Node)) : List Node → Option Step
  | n :: later =>
    if isExpanded above n then enterFirst above later else some (.enter ⟨n, later, above⟩)
  | [] =>
    match above with
    | (parent, later) :: above => some (.leave ⟨parent, later, above⟩)
    | [] => none

/-- The first step of a walk through a tree. -/
def first? (root : Node) : Option Step := enterFirst [] [root]

/-- The step that follows. -/
def next? : Step → Option Step
  | enter ⟨node, later, above⟩ => enterFirst ((node, later) :: above) node.children
  | leave ⟨_, later, above⟩ => enterFirst above later

end Step

/-! ### A walk ends -/

mutual

/-- How often a walk would stop at a node and those inside it. -/
def nodeSteps : Node → Nat
  | .node _ _ children => 2 + siblingSteps children

/-- How often a walk would stop at some siblings and the nodes inside them. -/
def siblingSteps : List Node → Nat
  | [] => 0
  | n :: later => nodeSteps n + siblingSteps later

end

/-- How often a walk would stop at some ancestors and their later siblings. -/
def ancestorSteps : List (Node × List Node) → Nat
  | [] => 0
  | (_, later) :: above => 1 + siblingSteps later + ancestorSteps above

/-- How often a walk would stop from a step on if no node came out of an entity. -/
def Step.remaining : Step → Nat
  | .enter ⟨node, later, above⟩ => nodeSteps node + siblingSteps later + ancestorSteps above
  | .leave ⟨_, later, above⟩ => 1 + siblingSteps later + ancestorSteps above

/-- Entering siblings takes no more steps than their number bounds. -/
theorem remaining_enterFirst (above : List (Node × List Node)) :
    ∀ (nodes : List Node) (step : Step), Step.enterFirst above nodes = some step →
      step.remaining ≤ siblingSteps nodes + ancestorSteps above := by
  intro nodes
  induction nodes with
  | nil =>
    intro step h
    cases above with
    | nil => simp [Step.enterFirst] at h
    | cons parent above =>
      obtain rfl : _ = step := by simpa [Step.enterFirst] using h
      simp [Step.remaining, siblingSteps, ancestorSteps]
  | cons n later ih =>
    intro step h
    rw [Step.enterFirst] at h
    split at h
    · have := ih step h
      simp only [siblingSteps]
      omega
    · obtain rfl : _ = step := by simpa using h
      simp [Step.remaining, siblingSteps]

/-- Every step leaves fewer steps to take. -/
theorem remaining_next? {step next : Step} (h : step.next? = some next) :
    next.remaining < step.remaining := by
  cases step with
  | enter place =>
    obtain ⟨⟨kind, extent, children⟩, later, above⟩ := place
    have := remaining_enterFirst _ _ _ h
    show next.remaining < nodeSteps (.node kind extent children) + siblingSteps later
      + ancestorSteps above
    simp only [Node.children, ancestorSteps] at this
    rw [nodeSteps]
    omega
  | leave place =>
    obtain ⟨node, later, above⟩ := place
    have := remaining_enterFirst _ _ _ h
    show next.remaining < 1 + siblingSteps later + ancestorSteps above
    omega

/-- Carries a value along a walk from a step on. -/
def foldSteps {α : Type} (f : α → Step → α) (a : α) (step : Step) : α :=
  match h : step.next? with
  | none => f a step
  | some next =>
    have := remaining_next? h
    foldSteps f (f a step) next
termination_by step.remaining

/-- Carries a value along the walk through a tree. -/
def foldWalk {α : Type} (f : α → Step → α) (a : α) (root : Node) : α :=
  match Step.first? root with
  | none => a
  | some step => foldSteps f a step

end XmlHighlight
