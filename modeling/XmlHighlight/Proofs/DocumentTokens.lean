import XmlHighlight.Proofs.TagTokens
import XmlHighlight.Proofs.Traversal

/-!
# Tokens of a document — nodes in order give spans in order

The nodes of a document that has no entities of its own stand one after the other, and those inside
an element stand between its tags. A walk meets the tags and comments in this order, and each paints
in its own place.

* `NodesStandAt` — nodes one after the other, each with its nodes inside it;
* `tokensAlong`, `tokensOf_eq` — the tokens of some steps, and of a whole walk;
* `StepsPaintWithin` — steps whose tokens paint between two offsets;
* `NodesStandAt.steps` — the steps through nodes that stand in order.
-/

namespace XmlHighlight

open Xml (Node NodeKind Extent isSpace)

variable (s : Source)

/-! ### Nodes in order -/

/-- Nodes stand one after the other from offset `lo` on and end before offset `hi`. Nothing is said
    about the place of a node that is not painted. -/
inductive NodesStandAt : Nat → List Node → Nat → Prop where
  | nil {lo hi : Nat} (le : lo ≤ hi) : NodesStandAt lo [] hi
  | unpainted {lo hi : Nat} {kind : NodeKind} {extent : Extent} {later : List Node}
      (kind_eq : kind = .text ∨ kind = .instruction) (rest : NodesStandAt lo later hi) :
      NodesStandAt lo (.node kind extent [] :: later) hi
  | comment {lo hi : Nat} {extent : Extent} {later : List Node} (le_start : lo ≤ extent.start)
      (room : extent.start + 7 ≤ extent.stop) (stop_le : extent.stop ≤ s.size)
      (rest : NodesStandAt extent.stop later hi) :
      NodesStandAt lo (.node .comment extent [] :: later) hi
  /-- An empty element, which is a single tag. -/
  | empty {lo hi nameEnd : Nat} {values : List (Nat × String)} {extent : Extent} {later : List Node}
      {tag : TagRest} (le_start : lo ≤ extent.start)
      (opened : StartTagStandsAt s s.size extent.start nameEnd tag true extent.stop)
      (fit : ValuesFit values tag.slots) (rest : NodesStandAt extent.stop later hi) :
      NodesStandAt lo (.node (.element values) extent [] :: later) hi
  /-- An element with a start tag, nodes inside it, and an end tag. -/
  | element {lo hi nameEnd inner outer endName close : Nat} {values : List (Nat × String)}
      {extent : Extent} {children later : List Node} {tag : TagRest} (le_start : lo ≤ extent.start)
      (opened : StartTagStandsAt s s.size extent.start nameEnd tag false inner)
      (fit : ValuesFit values tag.slots) (children_at : NodesStandAt inner children outer)
      (closed : EndTagStandsAt s s.size outer endName close) (stop_eq : extent.stop = close + 1)
      (rest : NodesStandAt extent.stop later hi) :
      NodesStandAt lo (.node (.element values) extent children :: later) hi

variable {s} {lo m hi : Nat}

theorem StartTagStandsAt.lt {stop i nameEnd j : Nat} {tag : TagRest} {empty : Bool}
    (h : StartTagStandsAt s stop i nameEnd tag empty j) : i < j := by
  have := h.name.lt
  have := h.rest.byte?_stop.1
  omega

theorem EndTagStandsAt.lt {stop i nameEnd close : Nat} (h : EndTagStandsAt s stop i nameEnd close) :
    i < close := by
  have := h.name.lt
  have := h.name_le
  omega

theorem NodesStandAt.le {nodes : List Node} (h : NodesStandAt s lo nodes hi) : lo ≤ hi := by
  induction h with
  | nil le => exact le
  | unpainted _ _ ih => exact ih
  | comment => omega
  | empty le_start opened =>
    have := opened.lt
    omega
  | element le_start opened _ _ closed stop_eq =>
    have := opened.lt
    have := closed.lt
    omega

/-! ### Tokens along a walk -/

variable (s)

/-- The tokens of some steps, and the cursor after them. -/
def tokensAlong (cursor : LineCursor) : List Step → List Token × LineCursor
  | [] => ([], cursor)
  | step :: rest =>
    match tokenAt s cursor step with
    | some (token, cursor) => (token :: (tokensAlong cursor rest).1, (tokensAlong cursor rest).2)
    | none => tokensAlong cursor rest

/-- The tokens along two walks in a row are those of the first and then of the second. -/
theorem tokensAlong_append (cursor : LineCursor) (steps later : List Step) :
    tokensAlong s cursor (steps ++ later)
      = ((tokensAlong s cursor steps).1 ++ (tokensAlong s (tokensAlong s cursor steps).2 later).1,
        (tokensAlong s (tokensAlong s cursor steps).2 later).2) := by
  induction steps generalizing cursor with
  | nil => rfl
  | cons step rest ih =>
    rw [List.cons_append, tokensAlong, tokensAlong]
    cases tokenAt s cursor step with
    | none => exact ih cursor
    | some found => simp only [ih, List.cons_append]

/-- What a walk does at a step: the tokens found so far, and the cursor. -/
def collect (found : Array Token × LineCursor) (step : Step) : Array Token × LineCursor :=
  match tokenAt s found.2 step with
  | some (token, cursor) => (found.1.push token, cursor)
  | none => found

/-- The tokens are collected while the tree is walked. -/
theorem tokensOf_eq_foldWalk (root : Node) :
    tokensOf s root = (foldWalk (collect s) (#[], .origin) root).1 := rfl

/-- Collecting along the steps gives the tokens along the steps. -/
theorem foldl_collect (steps : List Step) (found : Array Token × LineCursor) :
    steps.foldl (collect s) found
      = (found.1 ++ (tokensAlong s found.2 steps).1.toArray, (tokensAlong s found.2 steps).2) := by
  induction steps generalizing found with
  | nil => simp [tokensAlong]
  | cons step rest ih =>
    rw [List.foldl_cons, tokensAlong, ih]
    cases htoken : tokenAt s found.2 step with
    | none => simp only [collect, htoken]
    | some next => simp [collect, htoken]

/-- A walk collects the tokens of its steps. -/
theorem tokensOf_eq (root : Node) :
    (tokensOf s root).toList = (tokensAlong s .origin (visitSiblings [] [root])).1 := by
  rw [tokensOf_eq_foldWalk, foldWalk_eq, foldl_collect, Array.empty_append]

/-- The tokens of some steps paint between two offsets, whatever positions have been asked for
    before. -/
def StepsPaintWithin (lo hi : Nat) (steps : List Step) : Prop :=
  ∀ cursor : LineCursor, cursor.IsOn s →
    TokensPaintWithin s (.build s) lo hi (tokensAlong s cursor steps).1 ∧
      (tokensAlong s cursor steps).2.IsOn s

variable {s}

theorem stepsPaintWithin_nil (hle : lo ≤ hi) : StepsPaintWithin s lo hi [] :=
  fun _ hcursor => ⟨tokensPaintWithin_nil hle, hcursor⟩

theorem StepsPaintWithin.append {steps later : List Step} (h : StepsPaintWithin s lo m steps)
    (h' : StepsPaintWithin s m hi later) : StepsPaintWithin s lo hi (steps ++ later) := by
  intro cursor hcursor
  obtain ⟨hsteps, hon⟩ := h cursor hcursor
  obtain ⟨hlater, hon'⟩ := h' _ hon
  rw [tokensAlong_append]
  exact ⟨hsteps.append hlater, hon'⟩

/-- A step whose token, if it has one, paints between two offsets. -/
theorem stepsPaintWithin_singleton {step : Step} (hle : lo ≤ hi)
    (h : ∀ cursor : LineCursor, cursor.IsOn s → ∀ token last,
    tokenAt s cursor step = some (token, last) →
      token.PaintsWithin s (.build s) lo hi ∧ last.IsOn s) : StepsPaintWithin s lo hi [step] := by
  intro cursor hcursor
  rw [tokensAlong]
  cases htoken : tokenAt s cursor step with
  | none => exact ⟨tokensPaintWithin_nil hle, hcursor⟩
  | some found =>
    obtain ⟨token, last⟩ := found
    obtain ⟨hpaints, hlast⟩ := h cursor hcursor token last htoken
    exact ⟨hpaints.tokens, hlast⟩

/-! ### A walk through nodes that stand in order -/

theorem bytes_emptyEnd : "/>".toByteArray.toList = [byteOf '/', byteOf '>'] := by
  rw [bytes_eq_flatMap]
  decide

/-- The text of an empty element ends with `/>`. -/
theorem isSelfClosing_of_empty {i j nameEnd stop : Nat} {tag : TagRest}
    (h : StartTagStandsAt s stop i nameEnd tag true j) : isSelfClosing s ⟨i, j⟩ = true := by
  obtain ⟨hlt, hgreater⟩ := h.rest.byte?_stop
  have hname := h.name.lt
  have hj : j = tag.close + 2 := h.rest.stop_eq
  have hstart := Source.isBoundary_of_ascii h.opening (by decide)
  have hstop := Source.isBoundary_succ hgreater (by decide)
  rw [Nat.sub_add_cancel (by omega)] at hstop
  have hclose : s.startsWith "/>" j (j - 2) = true := by
    rw [Source.startsWith, bytes_emptyEnd, hj]
    simp [Source.matchesAt, show "/>".utf8ByteSize = 2 by decide]
    exact h.rest.closing
  rw [isSelfClosing, holds, hstart, hstop, hclose]
  simp only [Bool.and_true, Bool.and_eq_true, decide_eq_true_eq]
  omega

/-- The text of an element with an end tag ends with a name, or with white space, and `>`. -/
theorem isSelfClosing_of_endTag {i nameEnd close stop : Nat} {extent : Extent}
    (h : EndTagStandsAt s stop i nameEnd close) (hstop : extent.stop = close + 1) :
    isSelfClosing s extent = false := by
  have hlt := h.name.lt
  have hle := h.name_le
  have hslash : s.AllBytes (· != byteOf '/') (i + 2) close :=
    ((allBytes_of_nameChars h.name.chars).bne (by decide)).append (h.spaces.bne (by decide))
  have hne : s.byte? (close - 1) ≠ some (byteOf '/') := hslash.ne (by decide) (by omega) (by omega)
  have hclose : s.startsWith "/>" extent.stop (extent.stop - 2) = false := by
    rw [Source.startsWith, bytes_emptyEnd, hstop, show close + 1 - 2 = close - 1 by omega]
    simp [Source.matchesAt, hne]
  rw [isSelfClosing, hclose, Bool.and_false]

/-- A node that is entered and left, with steps between. Nothing happens if it comes out of an
    entity. -/
theorem stepsPaintWithin_visitNode {above : List (Node × List Node)} {later : List Node}
    {kind : NodeKind} {extent : Extent} {children : List Node} {i j : Nat} (hlo : lo ≤ i)
    (hij : i ≤ j) (hhi : j ≤ hi)
    (henter : StepsPaintWithin s lo i [.enter ⟨.node kind extent children, later, above⟩])
    (hchildren : StepsPaintWithin s i j
      (visitSiblings ((.node kind extent children, later) :: above) children))
    (hleave : StepsPaintWithin s j hi [.leave ⟨.node kind extent children, later, above⟩]) :
    StepsPaintWithin s lo hi (visitNode above later (.node kind extent children)) := by
  rw [visitNode]
  split
  · exact stepsPaintWithin_nil (by omega)
  · exact henter.append (hchildren.append hleave)

/-- An element is entered at its start tag. -/
theorem stepsPaintWithin_enter (hsize : s.size < UInt64.size) {above : List (Node × List Node)}
    {later children : List Node} {values : List (Nat × String)} {extent : Extent} {tag : TagRest}
    {nameEnd j : Nat} {empty : Bool} (hlo : lo ≤ extent.start)
    (h : StartTagStandsAt s s.size extent.start nameEnd tag empty j)
    (hfit : ValuesFit values tag.slots)
    (hself : isSelfClosing s extent = empty) :
    StepsPaintWithin s lo j [.enter ⟨.node (.element values) extent children, later, above⟩] := by
  have hlt := h.lt
  refine stepsPaintWithin_singleton (by omega) fun cursor hcursor token last htoken => ?_
  simp only [tokenAt, Node.kind, Node.extent, Option.some.injEq] at htoken
  obtain ⟨hpaints, hlast⟩ := startToken_paintsWithin hsize h hfit rfl hself hcursor
  rw [htoken] at hpaints hlast
  exact ⟨hpaints.mono_left hlo, hlast⟩

/-- **Order.** Nodes that stand in order are gone through in steps whose tokens paint in order. -/
theorem NodesStandAt.steps (hsize : s.size < UInt64.size) {nodes : List Node}
    (h : NodesStandAt s lo nodes hi) :
    ∀ above, StepsPaintWithin s lo hi (visitSiblings above nodes) := by
  induction h with
  | nil le =>
    intro above
    exact stepsPaintWithin_nil le
  | @unpainted lo hi kind extent later kind_eq _ ih =>
    intro above
    rw [visitSiblings]
    -- A node that paints nothing may stand anywhere.
    refine StepsPaintWithin.append (m := lo) ?_ (ih above)
    have hle := Nat.le_refl lo
    refine stepsPaintWithin_visitNode hle hle hle ?_ (stepsPaintWithin_nil hle) ?_
    · refine stepsPaintWithin_singleton hle fun cursor hcursor token last htoken => ?_
      rcases kind_eq with rfl | rfl
      · simp only [tokenAt, Node.kind, Option.some.injEq, Prod.mk.injEq] at htoken
        obtain ⟨rfl, rfl⟩ := htoken
        exact ⟨⟨[], rfl, hle⟩, hcursor.isOn_moveTo _⟩
      · simp only [tokenAt, Node.kind, Option.some.injEq, Prod.mk.injEq] at htoken
        obtain ⟨rfl, rfl⟩ := htoken
        exact ⟨⟨[], rfl, hle⟩, hcursor.isOn_moveTo _⟩
    · refine stepsPaintWithin_singleton hle fun cursor hcursor token last htoken => ?_
      rcases kind_eq with rfl | rfl <;> simp [tokenAt, Node.isElement, Node.kind] at htoken
  | @comment lo hi extent later le_start room stop_le _ ih =>
    intro above
    rw [visitSiblings]
    refine StepsPaintWithin.append (m := extent.stop) ?_ (ih above)
    have hle := Nat.le_refl extent.stop
    refine stepsPaintWithin_visitNode (i := extent.stop) (by omega) hle hle ?_
      (stepsPaintWithin_nil hle) ?_
    · refine stepsPaintWithin_singleton (by omega) fun cursor hcursor token last htoken => ?_
      simp only [tokenAt, Node.kind, Node.extent, Option.some.injEq] at htoken
      obtain ⟨hpaints, hlast⟩ := commentToken_paintsWithin hsize room stop_le hcursor
      rw [htoken] at hpaints hlast
      exact ⟨hpaints.mono_left (by omega), hlast⟩
    · refine stepsPaintWithin_singleton hle fun cursor hcursor token last htoken => ?_
      simp [tokenAt, Node.isElement, Node.kind] at htoken
  | @empty lo hi nameEnd values extent later tag le_start opened fit _ ih =>
    intro above
    rw [visitSiblings]
    refine StepsPaintWithin.append (m := extent.stop) ?_ (ih above)
    have hle := Nat.le_refl extent.stop
    have hlt := opened.lt
    have hself := isSelfClosing_of_empty opened
    refine stepsPaintWithin_visitNode (i := extent.stop) (by omega) hle hle
      (stepsPaintWithin_enter hsize le_start opened fit hself) (stepsPaintWithin_nil hle) ?_
    refine stepsPaintWithin_singleton hle fun cursor hcursor token last htoken => ?_
    simp [tokenAt, Node.isElement, Node.kind, Node.extent, endToken?, hself] at htoken
  | @element lo hi nameEnd inner outer endName close values extent children later tag le_start
      opened fit
      children_at closed stop_eq _ ihchildren ih =>
    intro above
    rw [visitSiblings]
    refine StepsPaintWithin.append (m := extent.stop) ?_ (ih above)
    have hself := isSelfClosing_of_endTag closed stop_eq
    have hopened := opened.lt
    have hchildren := children_at.le
    have hclosed := closed.lt
    refine stepsPaintWithin_visitNode (i := inner) (j := outer) (by omega) hchildren (by omega)
      (stepsPaintWithin_enter hsize le_start opened fit hself) (ihchildren _) ?_
    refine stepsPaintWithin_singleton (by omega) fun cursor hcursor token last htoken => ?_
    simp only [tokenAt, Node.isElement, Node.kind, Node.extent, if_true] at htoken
    rw [stop_eq]
    exact endToken_paintsWithin hsize closed (by omega) stop_eq hcursor htoken

end XmlHighlight
