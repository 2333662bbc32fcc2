import XmlHighlight.Proofs.DocumentTokens

/-!
# Tokens of steps — no memory along a walk

A walk asks one cursor for the positions of all its tokens, and the cursor remembers where it was
asked last. That makes no difference: the token of a step depends on the step alone.

* `Source.posOf` — the position of an offset;
* `startTagOf`, `endTagOf?`, `tokenOf?` — the tokens of steps, without a cursor;
* `tokenAt_eq` — what a step gives, whatever positions have been asked for before;
* `tokensOf_eq_filterMap` — the tokens of a document, step by step;
* `exists_enter_of_mem_tokensOf` — the step that a start tag belongs to.
-/

namespace XmlHighlight

open Xml (Node Extent)

variable (s : Source)

/-- The position of an offset, or of the end of the text if the offset lies beyond it. -/
def Source.posOf (i : Nat) : TextPos := (LineCursor.atOffset s (min i s.size)).pos

/-- The start tag of an element that stands at `extent`. -/
def startTagOf (values : List (Nat × String)) (extent : Extent) : Token :=
  let name := qualifiedName s (extent.start + 1)
  .startTag name (s.posOf (extent.start + 1))
    ((slots s (extent.start + 1 + name.utf8ByteSize)).map fun slot =>
      slotAttribute s values slot (s.posOf slot.name.start))
    (isSelfClosing s extent)

/-- The end tag of an element that stands at `extent`. -/
def endTagOf? (extent : Extent) : Option Token :=
  if isSelfClosing s extent || !holds s extent then none
  else
    (s.findLast? "</" extent.start extent.stop).map fun i =>
      .endTag (qualifiedName s (i + 2)) (s.posOf (i + 2))

/-- The token of a step. -/
def tokenOf? : Step → Option Token
  | .enter ⟨node, _, _⟩ =>
    match node.kind with
    | .document => none
    | .element values => some (startTagOf s values node.extent)
    | .text => some (.text (s.posOf node.extent.start) (node.extent.stop - node.extent.start))
    | .comment =>
      let bodyStart := node.extent.start + 4
      some (.comment (s.slice bodyStart (max (node.extent.stop - 3) bodyStart)) (s.posOf bodyStart))
    | .instruction => some (.instruction (s.posOf node.extent.start))
  | .leave ⟨node, _, _⟩ => if node.isElement then endTagOf? s node.extent else none

variable {s} {cursor : LineCursor}

/-! ### A cursor on the text -/

/-- A cursor that is moved goes to the offset, or to the end of the text. -/
theorem LineCursor.IsOn.moveTo_eq (h : cursor.IsOn s) (i : Nat) :
    cursor.moveTo s i = atOffset s (min i s.size) := by
  obtain ⟨j, hj, rfl⟩ := h
  exact moveTo_atOffset s hj i

/-- A cursor that is moved has the position of the offset it is moved to. -/
theorem LineCursor.IsOn.pos_moveTo (h : cursor.IsOn s) (i : Nat) :
    (cursor.moveTo s i).pos = s.posOf i := by
  rw [h.moveTo_eq, Source.posOf]

/-- The attributes do not depend on where the cursor was before. -/
theorem slotAttributes_eq (values : List (Nat × String)) (written : List Slot) (h : cursor.IsOn s) :
    (slotAttributes s values cursor written).1
        = written.map (fun slot => slotAttribute s values slot (s.posOf slot.name.start)) ∧
      (slotAttributes s values cursor written).2.IsOn s := by
  induction written generalizing cursor with
  | nil => exact ⟨rfl, h⟩
  | cons slot rest ih =>
    obtain ⟨hattrs, hlast⟩ := ih (h.isOn_moveTo slot.name.start)
    rw [slotAttributes, List.map_cons]
    refine ⟨?_, hlast⟩
    show slotAttribute s values slot (cursor.moveTo s slot.name.start).pos :: _ = _
    rw [hattrs, h.pos_moveTo]

/-- A start tag does not depend on where the cursor was before. -/
theorem startToken_of_isOn (values : List (Nat × String)) (extent : Extent) (h : cursor.IsOn s) :
    (startToken s values extent cursor).1 = startTagOf s values extent ∧
      (startToken s values extent cursor).2.IsOn s := by
  obtain ⟨hattrs, hlast⟩ := slotAttributes_eq values
    (slots s (extent.start + 1 + (qualifiedName s (extent.start + 1)).utf8ByteSize))
    (h.isOn_moveTo (extent.start + 1))
  rw [startToken_eq]
  refine ⟨?_, hlast⟩
  dsimp only
  rw [hattrs, h.pos_moveTo, startTagOf]

/-- An end tag does not depend on where the cursor was before. -/
theorem endToken?_of_isOn (extent : Extent) (h : cursor.IsOn s) :
    (endToken? s extent cursor).map Prod.fst = endTagOf? s extent ∧
      ∀ token last, endToken? s extent cursor = some (token, last) → last.IsOn s := by
  unfold endToken? endTagOf?
  split
  · exact ⟨rfl, fun _ _ htoken => by cases htoken⟩
  · cases s.findLast? "</" extent.start extent.stop with
    | none => exact ⟨rfl, fun _ _ htoken => by cases htoken⟩
    | some i =>
      refine ⟨?_, fun token last htoken => ?_⟩
      · simp only [Option.map_some, h.pos_moveTo]
      · simp only [Option.map_some, Option.some.injEq, Prod.mk.injEq] at htoken
        rw [← htoken.2]
        exact h.isOn_moveTo (i + 2)

/-- **Step.** A cursor on the text gives the token of a step, and is still on the text
    afterwards. -/
theorem tokenAt_eq (step : Step) (h : cursor.IsOn s) :
    (tokenAt s cursor step).map Prod.fst = tokenOf? s step ∧
      ∀ token last, tokenAt s cursor step = some (token, last) → last.IsOn s := by
  -- The cursor is only ever moved to an offset, so it always stands on one.
  cases step with
  | enter place =>
    obtain ⟨⟨kind, extent, children⟩, later, above⟩ := place
    cases kind with
    | document => exact ⟨rfl, fun _ _ htoken => by cases htoken⟩
    | element values =>
      obtain ⟨htoken, hlast⟩ := startToken_of_isOn values extent h
      refine ⟨congrArg some htoken, fun token last hfound => ?_⟩
      simp only [tokenAt, Node.kind, Node.extent, Option.some.injEq] at hfound
      rwa [hfound] at hlast
    | text | comment | instruction =>
      refine ⟨?_, fun token last hfound => ?_⟩
      · simp only [tokenAt, tokenOf?, commentToken, Node.kind, Node.extent, Option.map_some,
          h.pos_moveTo]
      · simp only [tokenAt, commentToken, Node.kind, Node.extent, Option.some.injEq,
          Prod.mk.injEq] at hfound
        rw [← hfound.2]
        exact h.isOn_moveTo _
  | leave place =>
    obtain ⟨node, later, above⟩ := place
    simp only [tokenAt, tokenOf?]
    split
    · exact endToken?_of_isOn node.extent h
    · exact ⟨rfl, fun _ _ htoken => by cases htoken⟩

/-! ### Along a walk -/

/-- **Run.** So the tokens of several steps are those of each of them. -/
theorem tokensAlong_eq (steps : List Step) (h : cursor.IsOn s) :
    (tokensAlong s cursor steps).1 = steps.filterMap (tokenOf? s) := by
  induction steps generalizing cursor with
  | nil => rfl
  | cons step rest ih =>
    obtain ⟨htoken, hlast⟩ := tokenAt_eq step h
    rw [tokensAlong]
    cases hfound : tokenAt s cursor step with
    | none =>
      rw [hfound, Option.map_none] at htoken
      rw [List.filterMap_cons_none htoken.symm]
      exact ih h
    | some found =>
      obtain ⟨token, last⟩ := found
      rw [hfound, Option.map_some] at htoken
      rw [List.filterMap_cons_some htoken.symm]
      exact congrArg (token :: ·) (ih (hlast token last hfound))

/-- The tokens of a document are those of the steps of a walk. -/
theorem tokensOf_eq_filterMap (root : Node) :
    (tokensOf s root).toList = (visitSiblings [] [root]).filterMap (tokenOf? s) := by
  rw [tokensOf_eq]
  exact tokensAlong_eq _ (LineCursor.isOn_atOffset (Nat.zero_le s.size))

/-- A result that has been found is no error. -/
theorem toOption_eq_some_iff {ε α : Type} {x : Except ε α} {a : α} :
    x.toOption = some a ↔ x = .ok a := by
  cases x with
  | error e => simp [Except.toOption]
  | ok b => simp [Except.toOption]

/-- A document that has tokens has been read. -/
theorem exists_parse_of_tokens {found : Array Token} (h : (tokens s).toOption = some found) :
    ∃ root, Xml.parse s = .ok root ∧ tokensOf s root = found := by
  obtain ⟨root, hparse, hfound⟩ := bind_eq_ok.mp (toOption_eq_some_iff.mp h)
  exact ⟨root, hparse, Except.ok.inj hfound⟩

/-- A start tag is the token of a step that enters an element. -/
theorem exists_enter_of_mem_tokensOf {root : Node} {name : String} {pos : TextPos}
    {attrs : List TagAttribute} {empty : Bool}
    (h : Token.startTag name pos attrs empty ∈ (tokensOf s root).toList) :
    ∃ place, Step.enter place ∈ visitSiblings [] [root] ∧ place.node.isElement = true ∧
      tokenOf? s (.enter place) = some (.startTag name pos attrs empty) := by
  rw [tokensOf_eq_filterMap, List.mem_filterMap] at h
  obtain ⟨step, hstep, htoken⟩ := h
  cases step with
  | enter place =>
    refine ⟨place, hstep, ?_, htoken⟩
    obtain ⟨⟨kind, extent, children⟩, later, above⟩ := place
    cases kind with
    | element values => rfl
    | document => cases htoken
    | text | comment | instruction => cases Option.some.inj htoken
  -- What an element leaves behind is an end tag or nothing.
  | leave place =>
    simp only [tokenOf?, endTagOf?] at htoken
    split at htoken
    · split at htoken
      · cases htoken
      · obtain ⟨i, -, hend⟩ := Option.map_eq_some_iff.mp htoken
        cases hend
    · cases htoken

end XmlHighlight
