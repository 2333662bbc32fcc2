import XmlHighlight.Proofs.Traversal

/-!
# Visits — a walk as seen from outside

A walk has one step at hand and finds the next one from where it is. Seen from outside, it is asked
for a step again and again, and each time it enters or leaves some node of the tree. Which node that
is, is told by the way to it. A recursion over the tree, which keeps nothing but the way and the
place of the element around, says the same.

* `Visit`, `Step.visit` — what a step does, and at which node of the tree;
* `visits`, `siblingVisits` — the recursion;
* `map_visit_visitNode` — the steps of a walk are its visits;
* `nthStep`, `walk_is_recursive` — what a walk gives each time it is asked for a step.
-/

namespace XmlHighlight

open Xml (Node Extent)

/-! ### The way to a node -/

/-- The indices of the children that lead from the root to a node with some later siblings, below
    some ancestors. -/
def wayTo : (above : List (Node × List Node)) → (later : List Node) → List Nat
  | [], _ => []
  | (parent, beyond) :: above, later =>
    wayTo above beyond ++ [parent.children.length - (later.length + 1)]

/-- A node is entered or left. The node is known by the way to it from the root. -/
inductive Visit where
  | enter (way : List Nat) (node : Node)
  | leave (way : List Nat) (node : Node)

/-- What a step of a walk does. -/
def Step.visit : Step → Visit
  | .enter ⟨node, later, above⟩ => .enter (wayTo above later) node
  | .leave ⟨node, later, above⟩ => .leave (wayTo above later) node

/-! ### The recursion -/

/-- Something does not lie inside the element around it, if there is one. -/
def sticksOut (around : Option Extent) (extent : Extent) : Bool :=
  match around with
  | none => false
  | some outer => extent.start < outer.start || outer.stop < extent.stop

/-- The place of a node that is an element. -/
def elementExtent? (n : Node) : Option Extent := if n.isElement then some n.extent else none

mutual

/-- The visits of a recursion through a node. A node that does not lie inside the element around it
    is not visited, and neither is anything below it. -/
def visits (around : Option Extent) (way : List Nat) : Node → List Visit
  | .node kind extent children =>
    let n : Node := .node kind extent children
    if sticksOut around extent then []
    else .enter way n :: (siblingVisits (elementExtent? n) way 0 children ++ [.leave way n])

/-- The visits of a recursion through some siblings, the first of which has a given index. -/
def siblingVisits (around : Option Extent) (way : List Nat) (index : Nat) : List Node → List Visit
  | [] => []
  | n :: later => visits around (way ++ [index]) n ++ siblingVisits around way (index + 1) later

end

/-- The element around the nodes below some ancestors, if the nearest of them is one. -/
def aroundOf : List (Node × List Node) → Option Extent
  | [] => none
  | (parent, _) :: _ => elementExtent? parent

/-- A node was made by an entity if it sticks out of the element around it. -/
theorem isExpanded_eq (above : List (Node × List Node)) (n : Node) :
    isExpanded above n = sticksOut (aroundOf above) n.extent := by
  cases above with
  | nil => rfl
  | cons first above =>
    obtain ⟨parent, later⟩ := first
    rw [isExpanded, aroundOf, elementExtent?]
    cases parent.isElement <;> rfl

mutual

/-- The steps at a node and below it are the visits of the recursion. -/
theorem map_visit_visitNode (above : List (Node × List Node)) (later : List Node) :
    ∀ n, (visitNode above later n).map Step.visit = visits (aroundOf above) (wayTo above later) n
  | .node kind extent children => by
    rw [visitNode, visits, isExpanded_eq]
    by_cases h : sticksOut (aroundOf above) extent
    · exact (congrArg _ (if_pos h)).trans (if_pos h).symm
    · refine (congrArg _ (if_neg h)).trans (Eq.trans ?_ (if_neg h).symm)
      -- All children are still to come when the node is entered, so the first of them has index
      -- zero.
      have hchildren := map_visit_visitSiblings (.node kind extent children) later above children 0
        (Nat.zero_add _).symm
      rw [List.map_cons, List.map_append, hchildren]
      rfl

/-- So are the steps at the last children of a node, if as many come before them as the recursion
    has counted. -/
theorem map_visit_visitSiblings (parent : Node) (beyond : List Node)
    (above : List (Node × List Node)) :
    ∀ nodes index, parent.children.length = index + nodes.length →
      (visitSiblings ((parent, beyond) :: above) nodes).map Step.visit
        = siblingVisits (elementExtent? parent) (wayTo above beyond) index nodes
  | [], _, _ => rfl
  | n :: later, index, hlength => by
    rw [List.length_cons] at hlength
    have hway : wayTo ((parent, beyond) :: above) later = wayTo above beyond ++ [index] := by
      rw [wayTo, show parent.children.length - (later.length + 1) = index by omega]
    rw [visitSiblings, siblingVisits, List.map_append, map_visit_visitNode, hway,
      map_visit_visitSiblings parent beyond above later (index + 1) (by omega)]
    rfl

end

mutual

/-- No node is visited more than twice. -/
theorem length_visits (around : Option Extent) (way : List Nat) :
    ∀ n, (visits around way n).length ≤ nodeSteps n
  | .node kind extent children => by
    rw [visits, nodeSteps]
    split
    · exact Nat.zero_le _
    · have := length_siblingVisits (elementExtent? (.node kind extent children)) way children 0
      simp only [List.length_cons, List.length_append, List.length_nil]
      omega

/-- There are no more visits than steps. -/
theorem length_siblingVisits (around : Option Extent) (way : List Nat) :
    ∀ nodes index, (siblingVisits around way index nodes).length ≤ siblingSteps nodes
  | [], _ => Nat.le_refl 0
  | n :: later, index => by
    have := length_visits around (way ++ [index]) n
    have := length_siblingVisits around way later (index + 1)
    rw [siblingVisits, siblingSteps, List.length_append]
    omega

end

/-! ### Asking for steps -/

/-- The step that a walk with a step at hand gives if it has been asked for a step `n` times
    before. -/
def nthStep (atHand : Option Step) : Nat → Option Step
  | 0 => atHand
  | n + 1 => nthStep (atHand.bind Step.next?) n

theorem nthStep_none (n : Nat) : nthStep none n = none := by
  induction n with
  | zero => rfl
  | succ n ih => exact ih

/-- A walk gives the steps that it takes one by one, and nothing from then on. -/
theorem Takes.nthStep_eq {atHand : Option Step} {steps : List Step} (h : Takes atHand steps)
    (n : Nat) :
    nthStep atHand n = steps[n]? := by
  induction h generalizing n with
  | done => rw [nthStep_none, List.getElem?_nil]
  | step _ ih =>
    cases n with
    | zero => rfl
    | succ n => exact ih n

/-- **Walks.** Whatever the shape of a tree is and wherever its nodes say they stand, a walk that is
    asked for steps again and again enters and leaves the nodes that the recursion visits, in the
    same order, and then it has come to its end. It has no more steps than two for each node. What
    is carried along the walk is what is carried along the recursion. -/
theorem walk_is_recursive (root : Node) :
    (∀ n, (nthStep (Step.first? root) n).map Step.visit = (visits none [] root)[n]?) ∧
      (visits none [] root).length ≤ nodeSteps root ∧
      ∀ {α : Type} (f : α → Visit → α) (a : α),
        foldWalk (fun a step => f a step.visit) a root = (visits none [] root).foldl f a := by
  have hvisits : (visitSiblings [] [root]).map Step.visit = visits none [] root := by
    rw [visitSiblings, visitSiblings, List.append_nil]
    exact map_visit_visitNode [] [] root
  refine ⟨fun n => ?_, length_visits none [] root, fun f a => ?_⟩
  · rw [(takes_first? root).nthStep_eq, ← List.getElem?_map, hvisits]
  · rw [foldWalk_eq, ← hvisits, List.foldl_map]

/-- The first and the last child of an element come out of entities. They are passed over together
    with what is in them. -/
example :
    let child : Node := .node .text ⟨7, 8⟩ []
    let element : Node := .node (.element []) ⟨4, 12⟩
      [.node (.element []) ⟨1, 6⟩ [child], child, .node (.element []) ⟨9, 15⟩ [child, child]]
    let root : Node := .node .document ⟨0, 12⟩ [element]
    (List.range 7).map (fun n => (nthStep (Step.first? root) n).map Step.visit)
      = [some (.enter [] root), some (.enter [0] element), some (.enter [0, 1] child),
        some (.leave [0, 1] child), some (.leave [0] element), some (.leave [] root), none] := rfl

end XmlHighlight
