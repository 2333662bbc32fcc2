import XmlHighlight.Scan.Run

/-!
# Batches — hand-outs neither lose nor add spans

A scan hands out spans in batches whose bounds depend on the settings. What it has found after some
of its items is always what it has handed out, followed by the batch at hand, and the bounds between
the two lie between items.

* `Report.spans` — everything that a scan has handed out;
* `itemSpans`, `itemFailure` — what an item paints by itself, and why it fails;
* `Scanner.Covers` — the invariant, with `Scanner.Covers.take` as the step and
  `Scanner.Covers.takeAll` as the run;
* `ending_planOf` — how a scan ends depends on its items alone;
* `spans_independent_of_settings` — two scans of the same items under any settings.
-/

namespace XmlHighlight

/-! ### What has been handed out -/

/-- The hand-out that an action is, if it is one. -/
def Action.flush? : Action → Option Flush
  | .flush f => some f
  | .pull => none
  | .poll => none

/-- The hand-outs among some actions. -/
def flushesOf (actions : List Action) : List Flush := actions.filterMap Action.flush?

/-- The spans of some hand-outs, one after the other. -/
def spansOf (flushes : List Flush) : List Span := flushes.flatMap Flush.spans

/-- Everything that a scan has handed out. -/
def Report.spans (r : Report) : List Span := spansOf r.flushes.toList

@[simp] theorem flushesOf_nil : flushesOf [] = [] := rfl

@[simp] theorem flushesOf_pull (rest : List Action) : flushesOf (.pull :: rest) = flushesOf rest :=
  rfl

@[simp] theorem flushesOf_poll (rest : List Action) : flushesOf (.poll :: rest) = flushesOf rest :=
  rfl

@[simp] theorem flushesOf_flush (f : Flush) (rest : List Action) :
    flushesOf (.flush f :: rest) = f :: flushesOf rest := rfl

@[simp] theorem flushesOf_append (a b : List Action) :
    flushesOf (a ++ b) = flushesOf a ++ flushesOf b :=
  List.filterMap_append

@[simp] theorem spansOf_nil : spansOf [] = [] := rfl

@[simp] theorem spansOf_cons (f : Flush) (rest : List Flush) :
    spansOf (f :: rest) = f.spans ++ spansOf rest := rfl

@[simp] theorem spansOf_append (a b : List Flush) : spansOf (a ++ b) = spansOf a ++ spansOf b :=
  List.flatMap_append

/-- Nobody asks the scan to stop. -/
def never : Nat → Bool := fun _ => false

/-- Without a request to stop, all actions are carried out. -/
theorem runActions_never (ending : Ending) (actions : List Action) (r : Report) :
    (Plan.runActions never ending actions r).ending = ending ∧
      (Plan.runActions never ending actions r).flushes.toList
        = r.flushes.toList ++ flushesOf actions := by
  induction actions generalizing r with
  | nil => simp [Plan.runActions]
  | cons a rest ih =>
    cases a with
    | pull => exact ih { r with pulled := r.pulled + 1 }
    | poll => exact ih { r with polls := r.polls + 1 }
    | flush f =>
      obtain ⟨hend, hflush⟩ := ih { r with flushes := r.flushes.push f }
      refine ⟨hend, ?_⟩
      rw [Plan.runActions, hflush, Array.toList_push, List.append_assoc, flushesOf_flush,
        List.singleton_append]

/-- A scan that nobody cancels ends as its plan does. -/
theorem ending_run_never (plan : Plan) : (plan.run never).ending = plan.ending :=
  (runActions_never _ _ _).1

/-- A scan that nobody cancels makes all flushes of its plan. -/
theorem flushes_run_never (plan : Plan) :
    (plan.run never).flushes.toList = flushesOf plan.actions.toList := by
  rw [Plan.run, (runActions_never _ _ _).2]
  rfl

/-- A scan that nobody cancels paints all spans of its plan. -/
theorem spans_run_never (plan : Plan) :
    (plan.run never).spans = spansOf (flushesOf plan.actions.toList) := by
  rw [Report.spans, flushes_run_never]

/-! ### What an item contributes -/

variable (s : Source) (index : LineIndex)

/-- The spans that an item paints by itself. -/
def itemSpans : TokenItem → List Span
  | .ok token => (tokenSpans s index token).spans
  | .error _ => []

/-- Why a scan fails at an item, if it does. -/
def itemFailure : TokenItem → Option ScanError
  | .ok token =>
    match (tokenSpans s index token).result with
    | .ok () => none
    | .error e => some e
  | .error message => some (.malformed message)

/-- The spans that some items paint, one after the other. -/
def itemsSpans (items : List TokenItem) : List Span := items.flatMap (itemSpans s index)

@[simp] theorem itemsSpans_nil : itemsSpans s index [] = [] := rfl

@[simp] theorem itemsSpans_append (a b : List TokenItem) :
    itemsSpans s index (a ++ b) = itemsSpans s index a ++ itemsSpans s index b :=
  List.flatMap_append

theorem itemsSpans_singleton (item : TokenItem) :
    itemsSpans s index [item] = itemSpans s index item := by
  simp [itemsSpans]

/-! ### The invariant of a scan -/

namespace Scanner

/-- The spans that a scan has handed out. -/
def handedOut (sc : Scanner) : List Span := spansOf (flushesOf sc.actions.toList)

/-- After the items `done` a scan has handed out the spans of the first of them, and has the spans
    of the others at hand. -/
def Covers (done : List TokenItem) (sc : Scanner) : Prop :=
  ∃ k ≤ done.length, sc.handedOut = itemsSpans s index (done.take k) ∧
    sc.batch.toList = itemsSpans s index (done.drop k)

variable {s index} {done : List TokenItem} {sc : Scanner} (settings : Settings)

theorem covers_start : start.Covers s index [] := ⟨0, Nat.le_refl 0, rfl, rfl⟩

/-- Nothing is lost: what has been handed out and what is at hand make up all that has been
    found. -/
theorem Covers.handedOut_append_batch (h : sc.Covers s index done) :
    sc.handedOut ++ sc.batch.toList = itemsSpans s index done := by
  obtain ⟨k, -, hout, hbatch⟩ := h
  rw [hout, hbatch, ← itemsSpans_append, List.take_append_drop]

/-- Pulling an item leaves what has been handed out and what is in the batch. -/
theorem handedOut_pull : (sc.pull settings).handedOut = sc.handedOut := by
  unfold handedOut pull
  split <;> simp

theorem Covers.pull (h : sc.Covers s index done) : (sc.pull settings).Covers s index done := by
  obtain ⟨k, hk, hout, hbatch⟩ := h
  exact ⟨k, hk, (handedOut_pull settings).trans hout, hbatch⟩

/-- A hand-out moves the bound between the two parts to the latest item. -/
theorem Covers.reach (h : sc.Covers s index done) (line : Nat) :
    (sc.reach index settings line).Covers s index done := by
  simp only [Scanner.reach]
  split
  · refine ⟨done.length, Nat.le_refl _, ?_, by simp⟩
    rw [List.take_length, ← h.handedOut_append_batch]
    simp [handedOut]
  · exact h

/-- **Step.** An item that does not fail is covered as well. After one that fails, only items before
    it have been handed out. -/
theorem Covers.take (h : sc.Covers s index done) (item : TokenItem) :
    (sc.take s index settings item).2 = itemFailure s index item ∧
      (itemFailure s index item = none →
        (sc.take s index settings item).1.Covers s index (done ++ [item])) ∧
      ∃ k ≤ done.length,
        (sc.take s index settings item).1.handedOut = itemsSpans s index (done.take k) := by
  cases item with
  | error message =>
    obtain ⟨k, hk, hout, -⟩ := h
    exact ⟨rfl, by simp [itemFailure], k, hk, (handedOut_pull settings).trans hout⟩
  | ok token =>
    obtain ⟨k, hk, hout, hbatch⟩ := (h.pull settings).reach settings token.pos.line
    -- What has been handed out stays a part of what is done, and the batch grows by the spans of
    -- the token.
    have hcovers : Covers s index (done ++ [.ok token])
        { (sc.pull settings).reach index settings token.pos.line with
          batch := ((sc.pull settings).reach index settings token.pos.line).batch
            ++ (tokenSpans s index token).spans.toArray } := by
      refine ⟨k, by simp; omega, ?_, ?_⟩
      · rw [List.take_append_of_le_length hk]
        exact hout
      · rw [List.drop_append_of_le_length hk, itemsSpans_append, itemsSpans_singleton, ← hbatch]
        simp [itemSpans]
    cases hresult : (tokenSpans s index token).result with
    | error e =>
      simp only [Scanner.take, itemFailure, hresult, true_and]
      exact ⟨by simp, k, hk, hout⟩
    | ok u =>
      simp only [Scanner.take, itemFailure, hresult, true_and]
      exact ⟨fun _ => hcovers, k, hk, hout⟩

/-- How a scan ends over some items. -/
def endingOver (s : Source) (index : LineIndex) (items : List TokenItem) : Ending :=
  match items.findSome? (itemFailure s index) with
  | none => .ok .completed
  | some e => .error e

/-- What a plan has handed out of some items when it is over. It may end at an item that fails; then
    a part of the items before has been handed out. -/
def Clean (s : Source) (index : LineIndex) (items : List TokenItem) (ending : Ending)
    (spans : List Span) : Prop :=
  (ending = .ok .completed → spans = itemsSpans s index items) ∧
    ∀ e, ending = .error e →
    ∃ (before : List TokenItem) (item : TokenItem) (after : List TokenItem),
      items = before ++ item :: after ∧
        (∀ i ∈ before, itemFailure s index i = none) ∧ itemFailure s index item = some e ∧
        ∃ k ≤ before.length, spans = itemsSpans s index (before.take k)

/-- **Run.** The invariant is carried from item to item up to the end of a scan. -/
theorem Covers.takeAll (items : List TokenItem) (h : sc.Covers s index done)
    (hdone : ∀ i ∈ done, itemFailure s index i = none) :
    (sc.takeAll s index settings items).ending = endingOver s index items ∧
      Clean s index (done ++ items) (sc.takeAll s index settings items).ending
        (spansOf (flushesOf (sc.takeAll s index settings items).actions.toList)) := by
  -- The items that have been dealt with grow while the others become fewer.
  induction items generalizing sc done with
  | nil =>
    refine ⟨rfl, fun _ => ?_, by simp [Scanner.takeAll, finish]⟩
    rw [List.append_nil, ← h.handedOut_append_batch]
    simp [Scanner.takeAll, finish, handedOut]
  | cons item rest ih =>
    obtain ⟨hfail, hcovers, k, hk, hout⟩ := h.take settings item
    rw [Scanner.takeAll]
    cases hitem : itemFailure s index item with
    | none =>
      have hstep : sc.take s index settings item
          = ((sc.take s index settings item).1, none) := by rw [← hitem, ← hfail]
      rw [hstep]
      obtain ⟨hend, hclean⟩ := ih (hcovers hitem) (by
        intro i hi
        rcases List.mem_append.mp hi with hi | hi
        · exact hdone i hi
        · rwa [List.mem_singleton.mp hi])
      refine ⟨?_, by simpa using hclean⟩
      rw [hend, endingOver, endingOver, List.findSome?_cons, hitem]
    | some e =>
      have hstep : sc.take s index settings item
          = ((sc.take s index settings item).1, some e) := by rw [← hitem, ← hfail]
      rw [hstep]
      refine ⟨by rw [endingOver, List.findSome?_cons, hitem], by simp, ?_⟩
      rintro e' ⟨⟩
      exact ⟨done, item, rest, rfl, hdone, hitem, k, hk, hout⟩

end Scanner

/-! ### Scans under different settings -/

variable (hasPositions : Bool) (items : List TokenItem)

/-- How a scan ends does not depend on the settings. -/
theorem ending_planOf (settings : Settings) :
    (planOf s index settings hasPositions items).ending
      = if hasPositions then Scanner.endingOver s index items else .ok .noPositions := by
  cases hasPositions with
  | false => rfl
  | true =>
    exact (Scanner.covers_start.takeAll settings items (by simp)).1

/-- A scan hands out the spans of its items, or of some of them that come before a failure. -/
theorem clean_planOf (settings : Settings) :
    Scanner.Clean s index items (planOf s index settings hasPositions items).ending
      (spansOf (flushesOf (planOf s index settings hasPositions items).actions.toList)) := by
  cases hasPositions with
  | false => exact ⟨by simp [planOf], by simp [planOf]⟩
  | true =>
    simpa [planOf] using
      (Scanner.covers_start.takeAll settings items (by simp)).2

/-- A scan of which no item fails completes, and hands out all spans. -/
theorem scan_completes (settings : Settings) (h : ∀ i ∈ items, itemFailure s index i = none) :
    ((planOf s index settings true items).run never).ending = .ok .completed ∧
      ((planOf s index settings true items).run never).spans = itemsSpans s index items := by
  have hend : (planOf s index settings true items).ending = .ok .completed := by
    rw [ending_planOf, Scanner.endingOver, List.findSome?_eq_none_iff.mpr h]
    rfl
  rw [ending_run_never, spans_run_never]
  exact ⟨hend, (clean_planOf s index true items settings).1 hend⟩

/-- **Batching is faithful.** A scan completes if no item fails, and ends with the first failure
    otherwise; without positions it does nothing. So two scans of the same items end in the same way
    whatever their settings. Each of them hands out exactly the spans that the items paint by
    themselves, in order, if it completes; and if it fails at an item, a part of the items before
    that one, and nothing of the item itself. -/
theorem spans_independent_of_settings (a b : Settings) :
    let first := (planOf s index a hasPositions items).run never
    let second := (planOf s index b hasPositions items).run never
    (first.ending = if hasPositions then Scanner.endingOver s index items else .ok .noPositions) ∧
      first.ending = second.ending ∧ Scanner.Clean s index items first.ending first.spans ∧
      Scanner.Clean s index items second.ending second.spans ∧
      (hasPositions = false → first.spans = []) := by
  intro first second
  simp only [first, second, ending_run_never, spans_run_never]
  refine ⟨ending_planOf s index hasPositions items a, ?_, clean_planOf s index hasPositions items a,
    clean_planOf s index hasPositions items b, ?_⟩
  · rw [ending_planOf, ending_planOf]
  · rintro rfl
    rfl

end XmlHighlight
