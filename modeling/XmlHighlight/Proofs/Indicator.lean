import XmlHighlight.Proofs.Interleaving

/-!
# Indicator — the progress indicator and the status line

Whether the indicator is shown, what it shows and what the status line says are kept apart, and
reports of progress, messages and the host change them in any order. The flag and the indicator
never disagree, and a report of completion has no power over what has been written into the status
line by others.

* `SurfaceStep`, `Surface.undergoAll` — what happens to a surface, one thing after the other;
* `Surface.IndicatorAgrees` — the flag says what is to be seen, with
  `Surface.IndicatorAgrees.undergo` as the step and `Surface.IndicatorAgrees.undergoAll` as the run;
* `Surface.after_partial`, `Surface.after_completion` — what the two kinds of reports do;
* `SurfaceStep.Writes` — what may change a status line that does not say that a scan is going on,
  with `Surface.status_undergo` and `Surface.status_undergoAll`;
* `indicator_protocol` — all of it, for a surface that anything may have happened to.
-/

namespace XmlHighlight

/-! ### What happens to a surface -/

/-- A thing that happens to a surface: a request is handled, or the host writes the status line or
    edits the text. -/
inductive SurfaceStep where
  | handle (r : Request)
  | setStatus (status : String)
  | edit (edit : Edit)

namespace Surface

/-- A surface after something has happened to it. -/
def undergo (s : Surface) : SurfaceStep → Surface
  | .handle r => s.after r
  | .setStatus status => s.mapBuffer (·.setStatus status)
  | .edit e => s.mapBuffer e.apply

/-- A surface after several things have happened to it. -/
def undergoAll (s : Surface) (steps : List SurfaceStep) : Surface := steps.foldl undergo s

end Surface

/-! ### Edits -/

namespace Edit

variable (e : Edit) (b : StyledBuffer)

/-- Edits leave alone what is shown around the text. -/
@[simp] theorem status_apply : (e.apply b).status = b.status := by
  cases e with
  | replaceText text =>
    show (b.replaceText text).status = b.status
    unfold StyledBuffer.replaceText
    dsimp only
    split <;> rfl
  | setText | insert | remove => rfl

@[simp] theorem progress_apply : (e.apply b).progress = b.progress := by
  cases e with
  | replaceText text =>
    show (b.replaceText text).progress = b.progress
    unfold StyledBuffer.replaceText
    dsimp only
    split <;> rfl
  | setText | insert | remove => rfl

end Edit

/-! ### Reports -/

/-- A report is a partial or a complete one. -/
theorem Progress.partial_or_complete (p : Progress) : p.percent < 100 ∨ p.percent = 100 := by
  have := p.percent_le
  omega

namespace Surface

variable {s : Surface}

/-- A report of partial progress shows the indicator. It writes the status line if that was hidden
    before. -/
theorem after_partial {p : Progress} (h : p.percent < 100) :
    (s.after (.showProgress p)).indicatorShown = true ∧
      (s.after (.showProgress p)).buffer.progress = some p ∧
      (s.after (.showProgress p)).buffer.status
        = if s.indicatorShown then s.buffer.status else busyStatus := by
  have hpartial : p.isComplete = false := by
    rw [Progress.isComplete, beq_eq_false_iff_ne]
    omega
  simp only [after, handle, showProgress, hpartial]
  cases s.indicatorShown <;> exact ⟨rfl, rfl, rfl⟩

/-- A report of completion hides the indicator. It writes the status line if that says that a scan
    is going on. -/
theorem after_completion {p : Progress} (h : p.percent = 100) :
    (s.after (.showProgress p)).IndicatorHidden ∧
      (s.after (.showProgress p)).buffer.status
        = if s.buffer.status = busyStatus then
          doneStatus s.buffer.lineCount else s.buffer.status := by
  have hcomplete : p.isComplete = true := by rw [Progress.isComplete, h, beq_self_eq_true]
  simp only [after, handle, showProgress, hcomplete, if_true]
  by_cases hbusy : s.buffer.status = busyStatus
  · have hstill : s.hideIndicator.buffer.status = busyStatus := hbusy
    rw [if_pos hstill, if_pos hbusy]
    exact ⟨⟨rfl, rfl⟩, rfl⟩
  · have hstill : ¬ s.hideIndicator.buffer.status = busyStatus := hbusy
    rw [if_neg hstill, if_neg hbusy]
    exact ⟨⟨rfl, rfl⟩, rfl⟩

/-- A failure takes the indicator away and shows its message. -/
theorem after_notify (message : String) :
    (s.after (.notify message)).IndicatorHidden ∧
      (s.after (.notify message)).buffer.status = message :=
  ⟨s.indicatorHidden_after_notify message, rfl⟩

/-! ### The flag and the indicator -/

/-- The flag says whether the indicator is to be seen, and an indicator that is to be seen shows
    partial progress. -/
structure IndicatorAgrees (s : Surface) : Prop where
  shown_iff : s.indicatorShown = true ↔ ∃ p, s.buffer.progress = some p
  partial_of_shown : ∀ p, s.buffer.progress = some p → p.percent < 100

theorem IndicatorHidden.agrees (h : s.IndicatorHidden) : s.IndicatorAgrees := by
  obtain ⟨hshown, hprogress⟩ := h
  constructor
  · simp [hshown, hprogress]
  · simp [hprogress]

/-- **Step.** Whatever happens, the flag and the indicator change together. -/
theorem IndicatorAgrees.undergo (h : s.IndicatorAgrees) (step : SurfaceStep) :
    (s.undergo step).IndicatorAgrees := by
  cases step with
  | handle r =>
    cases r with
    | readText | resetStyling | applyBatch => exact ⟨h.shown_iff, h.partial_of_shown⟩
    | showProgress p =>
      -- A report shows the indicator or takes it away, and sets the progress in the same step.
      rcases p.partial_or_complete with hpartial | hcomplete
      · obtain ⟨hshown, hprogress, -⟩ := s.after_partial hpartial
        constructor
        · exact ⟨fun _ => ⟨p, hprogress⟩, fun _ => hshown⟩
        · intro q hq
          rwa [← Option.some.inj (hprogress.symm.trans hq)]
      · exact (after_completion hcomplete).1.agrees
    | notify message => exact (s.indicatorHidden_after_notify message).agrees
  | setStatus status => exact ⟨h.shown_iff, h.partial_of_shown⟩
  | edit e =>
    have hprogress : (s.undergo (.edit e)).buffer.progress = s.buffer.progress := e.progress_apply _
    constructor
    · rw [hprogress]
      exact h.shown_iff
    · rw [hprogress]
      exact h.partial_of_shown

/-- **Run.** So they agree after everything that has happened. -/
theorem IndicatorAgrees.undergoAll (h : s.IndicatorAgrees) (steps : List SurfaceStep) :
    (s.undergoAll steps).IndicatorAgrees := by
  induction steps generalizing s with
  | nil => exact h
  | cons step rest ih => exact ih (h.undergo step)

end Surface

/-! ### The status line -/

/-- The host writes the status line, or a message does, or a report of partial progress that finds
    the indicator hidden. -/
def SurfaceStep.Writes (s : Surface) : SurfaceStep → Prop
  | setStatus _ => True
  | handle (.notify _) => True
  | handle (.showProgress p) => p.percent < 100 ∧ s.indicatorShown = false
  | handle _ => False
  | edit _ => False

namespace Surface

variable {s : Surface}

/-- **Step.** Nothing else changes a status line that does not say that a scan is going on. -/
theorem status_undergo {step : SurfaceStep} (hkept : s.buffer.status ≠ busyStatus)
    (h : ¬ step.Writes s) : (s.undergo step).buffer.status = s.buffer.status := by
  cases step with
  | handle r =>
    cases r with
    | readText | resetStyling | applyBatch => rfl
    | showProgress p =>
      rcases p.partial_or_complete with hpartial | hcomplete
      · obtain ⟨-, -, hstatus⟩ := s.after_partial hpartial
        -- A report writes to the status line only if it makes the indicator appear.
        cases hshown : s.indicatorShown with
        | false => exact absurd ⟨hpartial, hshown⟩ h
        | true => rwa [hshown, if_pos rfl] at hstatus
      · obtain ⟨-, hstatus⟩ := s.after_completion hcomplete
        rwa [if_neg hkept] at hstatus
    | notify message => exact absurd trivial h
  | setStatus status => exact absurd trivial h
  | edit e => exact e.status_apply _

/-- **Run.** It stays as it is until somebody writes it. -/
theorem status_undergoAll {steps : List SurfaceStep} (hkept : s.buffer.status ≠ busyStatus)
    (h : ∀ before next after, steps = before ++ next :: after →
    ¬ next.Writes (s.undergoAll before)) :
    (s.undergoAll steps).buffer.status = s.buffer.status := by
  induction steps generalizing s with
  | nil => rfl
  | cons step rest ih =>
    have hfirst : (s.undergo step).buffer.status = s.buffer.status :=
      status_undergo hkept (h [] step rest rfl)
    have hrest := ih (s := s.undergo step) (by rwa [hfirst]) fun before next after hsplit =>
      h (step :: before) next after (by rw [hsplit]; rfl)
    exact hrest.trans hfirst

end Surface

/-- **Indicator protocol.** Whatever has happened to a surface that showed no indicator in the
    beginning: the flag is up if and only if there is an indicator to be seen, which then shows less
    than 100 percent. A report of partial progress writes `Formatting...` into the status line if
    the indicator is hidden, and leaves the status line alone otherwise. A report of completion
    hides the indicator. If the status line still says `Formatting...` then, it tells the number of
    lines that the text has at that moment, and is left alone otherwise. A message hides the
    indicator and is written into the status line. Any other status that the host writes, or that a
    message leaves, stays until the host or a message writes again, or until a report of partial
    progress finds the indicator hidden. -/
theorem indicator_protocol {buffer : StyledBuffer} (hhidden : buffer.progress = none)
    (steps : List SurfaceStep) :
    let s := (Surface.ofBuffer buffer).undergoAll steps
    (s.indicatorShown = true ↔ ∃ p, s.buffer.progress = some p) ∧
      (∀ p, s.buffer.progress = some p → p.percent < 100) ∧
      (∀ p : Progress, p.percent < 100 →
        let t := s.after (.showProgress p)
        t.indicatorShown = true ∧ t.buffer.progress = some p ∧
          t.buffer.status = if s.indicatorShown then s.buffer.status else "Formatting...") ∧
      (∀ p : Progress, p.percent = 100 →
        let t := s.after (.showProgress p)
        t.IndicatorHidden ∧
          t.buffer.status = if s.buffer.status = "Formatting..."
            then "Done formatting. " ++ decimal s.buffer.lineCount ++ " lines"
            else s.buffer.status) ∧
      (∀ message,
        let t := s.after (.notify message)
        t.IndicatorHidden ∧ t.buffer.status = message) ∧
      ∀ message step later, step = .setStatus message ∨ step = .handle (.notify message) →
        message ≠ "Formatting..." →
        (∀ before next after, later = before ++ next :: after →
          ¬ next.Writes ((s.undergo step).undergoAll before)) →
        ((s.undergo step).undergoAll later).buffer.status = message := by
  intro s
  have hstart : (Surface.ofBuffer buffer).IndicatorHidden := ⟨rfl, hhidden⟩
  have hagrees := hstart.agrees.undergoAll steps
  refine ⟨hagrees.shown_iff, hagrees.partial_of_shown, fun p => Surface.after_partial,
    fun p => Surface.after_completion, Surface.after_notify, ?_⟩
  intro message step later hstep hother hquiet
  have hwritten : (s.undergo step).buffer.status = message := by
    rcases hstep with rfl | rfl
    · rfl
    · rfl
  exact (Surface.status_undergoAll (by rwa [hwritten]) hquiet).trans hwritten

/-- A line is added to a document while it is highlighted, so that there are three when a report of
    completion comes. Another document is loaded in its place instead, and now the reports come too
    late, that of completion, too. -/
theorem indicator_protocol_late_reports :
    let buffer := StyledBuffer.ofText "<a>\n</a>"
    let steps : List SurfaceStep :=
      [.handle (.showProgress (.ofPercent 50)), .edit (.insert 4 "<b/>\n")]
    let s := (Surface.ofBuffer buffer).undergoAll steps
    let done := s.after (.showProgress .complete)
    let later : List SurfaceStep :=
      [.edit (.setText "<b/>"), .handle (.showProgress (.ofPercent 70)),
        .handle (.showProgress .complete)]
    buffer.progress = none ∧ s.buffer.status = "Formatting..." ∧ s.indicatorShown = true ∧
      Progress.complete.percent = 100 ∧ done.IndicatorHidden ∧
      done.buffer.status = "Done formatting. 3 lines" ∧
      "Loaded" ≠ "Formatting..." ∧
      (∀ before next after, later = before ++ next :: after →
        ¬ next.Writes ((s.undergo (.setStatus "Loaded")).undergoAll before)) ∧
      ((s.undergo (.setStatus "Loaded")).undergoAll later).buffer.status = "Loaded" := by
  intro buffer steps s done later
  have hhidden : buffer.progress = none := rfl
  have hbusy : s.buffer.status = "Formatting..." := rfl
  have hlines : s.buffer.lineCount = 3 := by decide +kernel
  -- None of the later steps writes: the indicator is there already, and a completion writes only
  -- over the busy text.
  have hquiet : ∀ before next after, later = before ++ next :: after →
      ¬ next.Writes ((s.undergo (.setStatus "Loaded")).undergoAll before) := by
    intro before next after hsplit hwrites
    replace hsplit : [_, _, _] = before ++ next :: after := hsplit
    rcases before with _ | ⟨first, _ | ⟨second, _ | ⟨third, rest⟩⟩⟩
    · cases hsplit
      exact hwrites
    · cases hsplit
      exact absurd hwrites.2 (by decide)
    · cases hsplit
      exact absurd hwrites.1 (by decide)
    · simp at hsplit
  have hother : "Loaded" ≠ "Formatting..." := by decide
  obtain ⟨-, -, -, hcompletion, -, hstays⟩ := indicator_protocol hhidden steps
  obtain ⟨hgone, hstatus⟩ := hcompletion .complete rfl
  rw [if_pos hbusy, hlines] at hstatus
  exact ⟨hhidden, hbusy, rfl, rfl, hgone, hstatus, hother, hquiet,
    hstays _ _ later (.inl rfl) hother hquiet⟩

end XmlHighlight
