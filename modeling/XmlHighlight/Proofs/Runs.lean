import XmlHighlight.Proofs.Batches

/-!
# Runs — a plan that is carried out up to a poll

What a scan reports at any time is determined by the actions that it has carried out, and these are
all actions of its plan, or those up to the first poll that is told to stop.

* `Report.after` — a report after some more actions;
* `Uncancelled` — some polls of which none is told to stop;
* `Plan.runActions_append` — a run goes on behind actions that do not stop it;
* `Plan.runActions_cases` — a run carries out everything, or is stopped;
* `Plan.run_eq_run_never` — a run in which no poll says to stop.
-/

namespace XmlHighlight

/-! ### What actions amount to -/

/-- How many tokens some actions take. -/
def pullsOf (actions : List Action) : Nat := actions.count .pull

/-- How many polls some actions make. -/
def pollsOf (actions : List Action) : Nat := actions.count .poll

@[simp] theorem pullsOf_append (a b : List Action) : pullsOf (a ++ b) = pullsOf a + pullsOf b :=
  List.count_append

@[simp] theorem pollsOf_append (a b : List Action) : pollsOf (a ++ b) = pollsOf a + pollsOf b :=
  List.count_append

/-- Flushes pull nothing. -/
theorem pullsOf_flushes (flushes : List Flush) : pullsOf (flushes.map .flush) = 0 := by
  simp [pullsOf, List.count_eq_zero]

/-- Flushes poll for nothing. -/
theorem pollsOf_flushes (flushes : List Flush) : pollsOf (flushes.map .flush) = 0 := by
  simp [pollsOf, List.count_eq_zero]

namespace Report

/-- What has been done when some actions have been carried out behind those of a report. -/
def after (r : Report) (actions : List Action) : Report :=
  { r with
    flushes := r.flushes ++ (flushesOf actions).toArray
    polls := r.polls + pollsOf actions
    pulled := r.pulled + pullsOf actions }

@[simp] theorem after_nil (r : Report) : r.after [] = r := by
  simp [after, pollsOf, pullsOf]

@[simp] theorem polls_after (r : Report) (actions : List Action) :
    (r.after actions).polls = r.polls + pollsOf actions := rfl

/-- Actions are done one after the other. -/
theorem after_append (r : Report) (a b : List Action) : r.after (a ++ b) = (r.after a).after b := by
  simp [after, Nat.add_assoc]

theorem after_cons (r : Report) (a : Action) (rest : List Action) :
    r.after (a :: rest) = (r.after [a]).after rest :=
  after_append r [a] rest

end Report

/-! ### Runs that may be stopped -/

/-- None of the next `count` polls behind the first `polls` is told to stop. -/
def Uncancelled (cancel : Nat → Bool) (polls count : Nat) : Prop :=
  ∀ j, polls < j → j ≤ polls + count → cancel j = false

variable {cancel : Nat → Bool} {polls count : Nat}

theorem uncancelled_never (polls count : Nat) : Uncancelled never polls count := fun _ _ _ => rfl

theorem Uncancelled.mono {fewer : Nat} (h : Uncancelled cancel polls count) (hle : fewer ≤ count) :
    Uncancelled cancel polls fewer :=
  fun j hlt hj => h j hlt (by omega)

theorem Uncancelled.drop {first : Nat} (h : Uncancelled cancel polls (first + count)) :
    Uncancelled cancel (polls + first) count :=
  fun j hlt hj => h j (by omega) (by omega)

/-- One more poll in front that is not told to stop. -/
theorem Uncancelled.cons (hfirst : ¬cancel (polls + 1) = true)
    (h : Uncancelled cancel (polls + 1) count) : Uncancelled cancel polls (1 + count) := by
  intro j hlt hj
  rcases Nat.lt_or_ge (polls + 1) j with hj' | hj'
  · exact h j hj' (by omega)
  · rw [show j = polls + 1 by omega]
    simpa using hfirst

namespace Plan

/-- One action: it is carried out, unless it is a poll that is told to stop. -/
theorem runActions_cons (ending : Ending) (a : Action) (rest : List Action) (r : Report)
    (h : Uncancelled cancel r.polls (pollsOf [a])) :
    runActions cancel ending (a :: rest) r = runActions cancel ending rest (r.after [a]) := by
  cases a with
  | pull => simp [runActions, Report.after, pollsOf, pullsOf]
  | flush f => simp [runActions, Report.after, pollsOf, pullsOf]
  | poll =>
    have hfirst : ¬cancel (r.polls + 1) = true := by
      simpa using h (r.polls + 1) (Nat.lt_succ_self _) (Nat.le_refl _)
    rw [runActions]
    simp only [if_neg hfirst]
    simp [Report.after, pollsOf, pullsOf]

/-- Actions of which none is told to stop are carried out, and the run goes on. -/
theorem runActions_append (ending : Ending) (actions rest : List Action) (r : Report)
    (h : Uncancelled cancel r.polls (pollsOf actions)) :
    runActions cancel ending (actions ++ rest) r
      = runActions cancel ending rest (r.after actions) := by
  induction actions generalizing r with
  | nil => rw [List.nil_append, Report.after_nil]
  | cons a more ih =>
    rw [← List.singleton_append, pollsOf_append] at h
    rw [List.cons_append, runActions_cons ending a _ r (h.mono (Nat.le_add_right _ _)),
      ih (r.after [a]) h.drop, ← Report.after_cons]

/-- Actions of which none is told to stop are carried out to the end. -/
theorem runActions_eq_after (ending : Ending) (actions : List Action) (r : Report)
    (h : Uncancelled cancel r.polls (pollsOf actions)) :
    runActions cancel ending actions r = { r.after actions with ending } := by
  have hrun := runActions_append ending actions [] r h
  rwa [List.append_nil] at hrun

/-- Actions are carried out up to a poll that is told to stop. -/
theorem runActions_stopped (ending : Ending) (before after : List Action) (r : Report)
    (h : Uncancelled cancel r.polls (pollsOf before))
    (hstop : cancel (r.polls + pollsOf before + 1) = true) :
    runActions cancel ending (before ++ .poll :: after) r
      = { r.after (before ++ [.poll]) with ending := .ok .preempted } := by
  rw [runActions_append ending before _ r h, Report.after_append, runActions]
  refine (if_pos hstop).trans ?_
  simp [Report.after, pollsOf, pullsOf]

/-- None of the polls among some actions is told to stop, or one of them is the first that is. -/
theorem uncancelled_or_stopped (cancel : Nat → Bool) (polls : Nat) (actions : List Action) :
    Uncancelled cancel polls (pollsOf actions) ∨
      ∃ before after, actions = before ++ .poll :: after ∧
        Uncancelled cancel polls (pollsOf before) ∧ cancel (polls + pollsOf before + 1) = true := by
  induction actions generalizing polls with
  | nil => exact .inl fun j hlt hj => absurd hj (by simpa [pollsOf] using hlt)
  | cons a rest ih =>
    -- An action that is not a stop is put in front of what holds of the others.
    have hcons : (∀ more, Uncancelled cancel (polls + pollsOf [a]) more →
          Uncancelled cancel polls (pollsOf [a] + more)) →
        Uncancelled cancel polls (pollsOf (a :: rest)) ∨
          ∃ before after, a :: rest = before ++ .poll :: after ∧
            Uncancelled cancel polls (pollsOf before) ∧
            cancel (polls + pollsOf before + 1) = true := by
      intro hfront
      rcases ih (polls + pollsOf [a]) with hall | ⟨before, after, rfl, hbefore, hstop⟩
      · rw [← List.singleton_append, pollsOf_append]
        exact .inl (hfront _ hall)
      · refine .inr ⟨a :: before, after, rfl, ?_⟩
        rw [← List.singleton_append, pollsOf_append, ← Nat.add_assoc polls]
        exact ⟨hfront _ hbefore, hstop⟩
    cases a with
    | pull => exact hcons fun more h => by simpa [pollsOf] using h
    | flush f => exact hcons fun more h => by simpa [pollsOf] using h
    | poll =>
      by_cases hstop : cancel (polls + 1) = true
      · exact .inr ⟨[], rest, rfl, fun j hlt hj => absurd hj (by simpa [pollsOf] using hlt), hstop⟩
      · exact hcons fun more h => h.cons hstop

/-- A run carries out all actions and ends as planned, or it is stopped by a poll and has carried
    out the actions before that. -/
theorem runActions_cases (cancel : Nat → Bool) (ending : Ending) (actions : List Action)
    (r : Report) :
    runActions cancel ending actions r = { r.after actions with ending } ∨
      ∃ before after, actions = before ++ .poll :: after ∧
        runActions cancel ending actions r
          = { r.after (before ++ [.poll]) with ending := .ok .preempted } := by
  rcases uncancelled_or_stopped cancel r.polls actions with hall
    | ⟨before, after, rfl, hbefore, hstop⟩
  · exact .inl (runActions_eq_after ending actions r hall)
  · exact .inr ⟨before, after, rfl, runActions_stopped ending before after r hbefore hstop⟩

/-! ### Whole runs -/

/-- What a scan reports before its first action. -/
def nothingDone (ending : Ending) : Report := ⟨#[], 0, 0, ending⟩

/-- What is reported when all actions have been carried out. -/
theorem run_eq_after (plan : Plan) (h : Uncancelled cancel 0 (pollsOf plan.actions.toList)) :
    plan.run cancel = (nothingDone plan.ending).after plan.actions.toList :=
  runActions_eq_after plan.ending plan.actions.toList _ h

/-- A run in which no poll says to stop is like one that nobody asks to stop. -/
theorem run_eq_run_never (plan : Plan) (h : Uncancelled cancel 0 (pollsOf plan.actions.toList)) :
    plan.run cancel = plan.run never := by
  rw [run_eq_after plan h, run_eq_after plan (uncancelled_never _ _)]

/-- A run that completes has made all its polls. -/
theorem polls_of_completed (plan : Plan) (h : (plan.run cancel).ending = .ok .completed) :
    plan.ending = .ok .completed ∧ (plan.run cancel).polls = pollsOf plan.actions.toList := by
  rcases runActions_cases cancel plan.ending plan.actions.toList (nothingDone plan.ending) with
    hrun | ⟨before, after, -, hrun⟩
  · have hrun : plan.run cancel = _ := hrun
    rw [hrun] at h ⊢
    exact ⟨h, Nat.zero_add _⟩
  · have hrun : plan.run cancel = _ := hrun
    rw [hrun] at h
    cases h

end Plan

end XmlHighlight
