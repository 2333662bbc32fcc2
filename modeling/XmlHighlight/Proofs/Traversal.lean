import XmlHighlight.Token.Walk

/-!
# Traversal — a walk as a recursion

A walk goes from step to step and knows only where it is. What it does on the whole is what a
recursion over the tree does: it enters a node, goes through its children in order, and leaves the
node.

* `visitNode`, `visitSiblings` — the recursion;
* `comingSteps` — the steps that are left when the children of a node are done;
* `Takes`, `takes_enterFirst` — the steps that a walk takes are those of the recursion;
* `foldWalk_eq` — a walk carries its value along the steps of the recursion.
-/

namespace XmlHighlight

open Xml (Node Extent)

mutual

/-- The steps of a recursion through a node, which come to nothing if the node comes out of an
    entity. -/
def visitNode (above : List (Node × List Node)) (later : List Node) : Node → List Step
  | .node kind extent children =>
    let n : Node := .node kind extent children
    if isExpanded above n then []
    else
      .enter ⟨n, later, above⟩
        :: (visitSiblings ((n, later) :: above) children ++ [.leave ⟨n, later, above⟩])

/-- The steps of a recursion through some siblings. -/
def visitSiblings (above : List (Node × List Node)) : List Node → List Step
  | [] => []
  | n :: later => visitNode above later n ++ visitSiblings above later

end

/-- The steps that are left when some siblings are done: their parent is left, and its later
    siblings are gone through, and so on outwards. -/
def comingSteps : List (Node × List Node) → List Step
  | [] => []
  | (parent, later) :: above =>
    .leave ⟨parent, later, above⟩ :: (visitSiblings above later ++ comingSteps above)

/-- The steps that a walk takes until it ends, from a step on if there is one. -/
inductive Takes : Option Step → List Step → Prop where
  | done : Takes none []
  | step {step : Step} {following : List Step} (rest : Takes step.next? following) :
      Takes (some step) (step :: following)

/-- **Walking.** The siblings that a walk enters are gone through as by the recursion, and then the
    walk goes on above them. -/
theorem takes_enterFirst (above : List (Node × List Node)) (nodes : List Node) :
    Takes (Step.enterFirst above nodes) (visitSiblings above nodes ++ comingSteps above) := by
  -- By induction on how often a walk would stop from here on: going down to children, passing over
  -- a node and going up all bring this down.
  match nodes, above with
  | [], [] => exact .done
  | [], (parent, later) :: above =>
    rw [Step.enterFirst]
    exact .step (takes_enterFirst above later)
  | .node kind extent children :: later, above =>
    rw [Step.enterFirst, visitSiblings, visitNode]
    by_cases h : isExpanded above (.node kind extent children)
    · rw [if_pos h, if_pos h]
      exact takes_enterFirst above later
    · rw [if_neg h, if_neg h]
      have rest := takes_enterFirst ((.node kind extent children, later) :: above) children
      rw [comingSteps] at rest
      simp only [List.cons_append, List.append_assoc, List.nil_append]
      exact .step rest
termination_by siblingSteps nodes + ancestorSteps above
decreasing_by
  all_goals simp only [siblingSteps, nodeSteps, ancestorSteps]; omega

/-- The steps of a walk through a tree are those of the recursion. -/
theorem takes_first? (root : Node) : Takes (Step.first? root) (visitSiblings [] [root]) := by
  have h := takes_enterFirst [] [root]
  rwa [comingSteps, List.append_nil] at h

/-! ### Carrying a value along -/

variable {α : Type} (f : α → Step → α)

/-- Carries a value along a walk from a step on, if there is one. -/
def foldFrom (a : α) : Option Step → α
  | none => a
  | some step => foldSteps f a step

/-- Folding from a step takes that step and goes on from the next. -/
theorem foldSteps_eq (a : α) (step : Step) :
    foldSteps f a step = foldFrom f (f a step) step.next? := by
  rw [foldSteps]
  split
  · next h => rw [h]; rfl
  · next following h =>
    show foldSteps f (f a step) following = _
    rw [h]
    rfl

/-- Folding along the links is folding over the list of the steps. -/
theorem Takes.foldFrom_eq {step : Option Step} {steps : List Step} (h : Takes step steps) (a : α) :
    foldFrom f a step = steps.foldl f a := by
  induction h generalizing a with
  | done => rfl
  | step _ ih => rw [foldFrom, foldSteps_eq, ih, List.foldl_cons]

/-- A walk through a tree carries its value along the steps of the recursion. -/
theorem foldWalk_eq (a : α) (root : Node) :
    foldWalk f a root = (visitSiblings [] [root]).foldl f a := by
  rw [← (takes_first? root).foldFrom_eq f a, foldWalk]
  cases Step.first? root <;> rfl

end XmlHighlight
