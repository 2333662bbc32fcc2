import XmlHighlight.Proofs.Runs

/-!
# Progress — reports only grow

Every hand-out of a scan reports how far the scan has come. Lines may come in any order and need not
exist, but a scan keeps the largest figure so far, which stays below 100 until there is nothing left
to do.

* `ClimbTo` — figures that never fall, up to a bound;
* `Scanner.Climbs`, `Plan.Climbs` — what holds of a scan under way, and of all that a scan does;
* `climbs_planOf`, `climbs_documentPlan` — so it is with every scan;
* `progress_only_grows` — the reports of a scan that may be stopped at any poll.
-/

namespace XmlHighlight

/-! ### Reports that climb -/

/-- The figures that some hand-outs report. -/
def percents (flushes : List Flush) : List Nat := flushes.map (·.progress.percent)

@[simp] theorem percents_append (a b : List Flush) : percents (a ++ b) = percents a ++ percents b :=
  List.map_append

/-- Figures never fall, and none of them is larger than `bound`. -/
def ClimbTo (bound : Nat) (figures : List Nat) : Prop :=
  figures.Pairwise (· ≤ ·) ∧ ∀ p ∈ figures, p ≤ bound

variable {bound bound' : Nat} {figures : List Nat}

theorem climbTo_nil : ClimbTo bound [] := ⟨.nil, List.forall_mem_nil _⟩

theorem ClimbTo.mono (h : ClimbTo bound figures) (hle : bound ≤ bound') : ClimbTo bound' figures :=
  ⟨h.1, fun p hp => Nat.le_trans (h.2 p hp) hle⟩

/-- A further figure that is not below the bound becomes the bound. -/
theorem ClimbTo.concat (h : ClimbTo bound figures) (hle : bound ≤ bound') :
    ClimbTo bound' (figures ++ [bound']) := by
  have hbefore := (h.mono hle).2
  refine ⟨List.pairwise_append.mpr ⟨h.1, List.pairwise_singleton _ _, ?_⟩, ?_⟩
  · intro p hp q hq
    rw [List.mem_singleton.mp hq]
    exact hbefore p hp
  · rw [List.forall_mem_append]
    exact ⟨hbefore, fun p hp => Nat.le_of_eq (List.mem_singleton.mp hp)⟩

/-- Figures that climb do so up to any of them. -/
theorem ClimbTo.left {more : List Nat} (h : ClimbTo bound (figures ++ more)) :
    ClimbTo bound figures :=
  ⟨(List.pairwise_append.mp h.1).1, (List.forall_mem_append.mp h.2).1⟩

/-! ### A scan under way -/

/-- The progress at a line stays below a hundred. -/
theorem Progress.percent_atLine_le (line total : Nat) : (atLine line total).percent ≤ 99 := by
  unfold atLine
  split
  · exact Nat.zero_le _
  · exact Nat.min_le_right _ _

/-- The larger of two percentages is at least the first, and at most what both are at most. -/
theorem Progress.percent_max (p q : Progress) :
    p.percent ≤ (p.max q).percent ∧
      ∀ bound, p.percent ≤ bound → q.percent ≤ bound → (p.max q).percent ≤ bound := by
  unfold Progress.max
  split
  · next h => exact ⟨h, fun _ _ hq => hq⟩
  · exact ⟨Nat.le_refl _, fun _ hp _ => hp⟩

variable {s : Source} {index : LineIndex} {sc : Scanner} (settings : Settings)

namespace Scanner

/-- What a scan has reported climbs up to its progress, which is below 100. -/
structure Climbs (sc : Scanner) : Prop where
  figures : ClimbTo sc.progress.percent (percents (flushesOf sc.actions.toList))
  partly : sc.progress.percent ≤ 99

theorem climbs_start : start.Climbs := ⟨climbTo_nil, Nat.zero_le _⟩

/-- Pulling an item leaves the figures. -/
theorem Climbs.pull (h : sc.Climbs) : (sc.pull settings).Climbs := by
  have hflushes : flushesOf (sc.pull settings).actions.toList = flushesOf sc.actions.toList := by
    unfold Scanner.pull
    split <;> simp
  refine ⟨?_, h.partly⟩
  rw [hflushes]
  exact h.figures

/-- The progress that is reported is the largest so far. -/
theorem Climbs.reach (h : sc.Climbs) (line : Nat) : (sc.reach index settings line).Climbs := by
  simp only [Scanner.reach]
  split
  · obtain ⟨hgrows, hbounded⟩ := Progress.percent_max sc.progress (.atLine line index.lineCount)
    refine ⟨?_, hbounded 99 h.partly (Progress.percent_atLine_le line index.lineCount)⟩
    simpa [percents] using h.figures.concat hgrows
  · exact h

/-- **Step.** Whatever the next token is, the reports go on climbing. -/
theorem Climbs.take (h : sc.Climbs) (item : TokenItem) :
    (sc.take s index settings item).1.Climbs := by
  cases item with
  | error message => exact h.pull settings
  | ok token =>
    have hreach : ((sc.pull settings).reach index settings token.pos.line).Climbs :=
      (h.pull settings).reach settings token.pos.line
    -- The spans of the token go to the batch and leave the figures as they are.
    have hbatch : Climbs { (sc.pull settings).reach index settings token.pos.line with
        batch := ((sc.pull settings).reach index settings token.pos.line).batch
          ++ (tokenSpans s index token).spans.toArray } :=
      ⟨hreach.figures, hreach.partly⟩
    cases hresult : (tokenSpans s index token).result with
    | error e =>
      simp only [Scanner.take, hresult]
      exact hbatch
    | ok u =>
      simp only [Scanner.take, hresult]
      exact hbatch

end Scanner

/-! ### A whole scan -/

/-- What a plan reports climbs and stays below 100. Only if the plan is carried out to its end, and
    nothing fails, a last action reports 100. -/
def Plan.Climbs (plan : Plan) : Prop :=
  ∃ early : List Action, ClimbTo 99 (percents (flushesOf early)) ∧
    (plan.ending ≠ .ok .completed ∧ plan.actions.toList = early ∨
      plan.ending = .ok .completed ∧
        ∃ spans, plan.actions.toList = early ++ [.flush ⟨.complete, spans⟩])

/-- **Run.** By induction on the tokens that are left. -/
theorem Scanner.Climbs.takeAll (h : sc.Climbs) (items : List TokenItem) :
    (sc.takeAll s index settings items).Climbs := by
  induction items generalizing sc with
  -- The last flush is the complete one, and only a stream without a failure gets to it.
  | nil =>
    exact ⟨sc.actions.toList, h.figures.mono h.partly,
      .inr ⟨rfl, sc.batch.toList, Array.toList_push⟩⟩
  | cons item rest ih =>
    have hstep : (sc.take s index settings item).1.Climbs := h.take settings item
    rw [Scanner.takeAll]
    split
    · next next heq =>
      rw [heq] at hstep
      exact ih hstep
    · next next e heq =>
      rw [heq] at hstep
      exact ⟨next.actions.toList, hstep.figures.mono hstep.partly, .inl ⟨by simp, rfl⟩⟩

/-- The figures of any plan climb. -/
theorem climbs_planOf (s : Source) (index : LineIndex) (hasPositions : Bool)
    (items : List TokenItem) :
    (planOf s index settings hasPositions items).Climbs := by
  cases hasPositions with
  | false => exact ⟨[], climbTo_nil, .inl ⟨by simp [planOf], rfl⟩⟩
  | true => exact Scanner.climbs_start.takeAll settings items

/-- The figures of the plan for a document climb. -/
theorem climbs_documentPlan (s : Source) (index : LineIndex) :
    (documentPlan s index settings).Climbs := by
  unfold documentPlan
  split
  · exact ⟨[], climbTo_nil, .inr ⟨rfl, [], rfl⟩⟩
  · split
    · exact ⟨[], climbTo_nil, .inl ⟨by simp, rfl⟩⟩
    · exact climbs_planOf settings s index true _

/-! ### A scan that may be stopped -/

/-- The figures of a report climb below 100; a 100 follows them if the scan has completed, and only
    then. -/
theorem Plan.Climbs.run {plan : Plan} (h : plan.Climbs) (cancel : Nat → Bool) :
    ∃ early, ClimbTo 99 early ∧
      ((plan.run cancel).ending ≠ .ok .completed ∧
          percents (plan.run cancel).flushes.toList = early ∨
        (plan.run cancel).ending = .ok .completed ∧
          percents (plan.run cancel).flushes.toList = early ++ [100]) := by
  obtain ⟨early, hclimb, hplan⟩ := h
  rcases runActions_cases cancel plan.ending plan.actions.toList (nothingDone plan.ending) with
    hrun | ⟨before, after, hactions, hrun⟩
  · have hrun : plan.run cancel = _ := hrun
    have hflushes : (plan.run cancel).flushes.toList = flushesOf plan.actions.toList := by
      rw [hrun]
      simp [Report.after, nothingDone]
    refine ⟨_, hclimb, ?_⟩
    rw [hflushes, hrun]
    rcases hplan with ⟨hne, hall⟩ | ⟨hcompleted, spans, hall⟩
    · exact .inl ⟨hne, by simp [hall]⟩
    · exact .inr ⟨hcompleted, by simp [hall, percents, Progress.complete]⟩
  · -- The poll comes before the last action, which is none.
    have hpart : ∃ more, flushesOf early = flushesOf before ++ more := by
      rcases hplan with ⟨-, hall⟩ | ⟨-, spans, hall⟩
      · rw [← hall, hactions, flushesOf_append]
        exact ⟨_, rfl⟩
      · rw [hall] at hactions
        rcases List.eq_nil_or_concat after with rfl | ⟨init, last, rfl⟩
        · have hlast := (List.append_inj' hactions rfl).2
          cases hlast
        · rw [List.concat_eq_append, ← List.cons_append, ← List.append_assoc] at hactions
          rw [(List.append_inj' hactions rfl).1, flushesOf_append]
          exact ⟨_, rfl⟩
    obtain ⟨more, hmore⟩ := hpart
    rw [hmore, percents_append] at hclimb
    have hrun : plan.run cancel = _ := hrun
    refine ⟨_, hclimb.left, .inl ?_⟩
    rw [hrun]
    exact ⟨by simp, by simp [Report.after, nothingDone]⟩

/-- A scan that does not complete never reports that it has. -/
theorem Plan.Climbs.not_complete {plan : Plan} (h : plan.Climbs) {cancel : Nat → Bool}
    (hne : (plan.run cancel).ending ≠ .ok .completed) :
    ∀ f ∈ (plan.run cancel).flushes.toList, f.progress.isComplete = false := by
  intro f hf
  obtain ⟨early, hclimb, ⟨-, hfigures⟩ | ⟨hcompleted, -⟩⟩ := h.run cancel
  · have hpercent : f.progress.percent ≤ 99 := by
      refine hclimb.2 _ ?_
      rw [← hfigures]
      exact List.mem_map_of_mem hf
    rw [Progress.isComplete, beq_eq_false_iff_ne]
    omega
  · exact absurd hcompleted hne

/-- **Progress.** The figures that a scan reports never fall, however its tokens are placed and
    whenever it is asked to stop. All but the last are at most 99. There is a report of 100 if and
    only if the scan completes; it is the last one then, and the only one. Tokens without positions
    are not reported on. -/
theorem progress_only_grows (s : Source) (index : LineIndex) (settings : Settings)
    (hasPositions : Bool)
    (items : List TokenItem) (cancel : Nat → Bool) :
    let report := (planOf s index settings hasPositions items).run cancel
    let figures := percents report.flushes.toList
    figures.Pairwise (· ≤ ·) ∧ (∀ p ∈ figures.dropLast, p ≤ 99) ∧
      (100 ∈ figures ↔ report.ending = .ok .completed) ∧
      (report.ending = .ok .completed → ∃ early, figures = early ++ [100] ∧ 100 ∉ early) ∧
      (hasPositions = false → figures = []) := by
  intro report figures
  obtain ⟨early, hclimb, hreport⟩ := (climbs_planOf settings s index hasPositions items).run cancel
  have hpartly : 100 ∉ early := fun hmem => absurd (hclimb.2 100 hmem) (by decide)
  have hunplaced : hasPositions = false → figures = [] := by
    rintro rfl
    rfl
  -- The report is complete and ends with 100, or it stopped early and never gets there.
  rcases hreport with ⟨hne, hfigures⟩ | ⟨hcompleted, hfigures⟩
  · have hfigures : figures = early := hfigures
    rw [hfigures]
    refine ⟨hclimb.1, fun p hp => hclimb.2 p (List.dropLast_subset _ hp), ?_, ?_, ?_⟩
    · exact iff_of_false hpartly hne
    · exact fun hcompleted => absurd hcompleted hne
    · rw [← hfigures]
      exact hunplaced
  · have hfigures : figures = early ++ [100] := hfigures
    rw [hfigures]
    refine ⟨(hclimb.concat (by decide)).1, ?_, ?_, fun _ => ⟨early, rfl, hpartly⟩, ?_⟩
    · rw [List.dropLast_concat]
      exact hclimb.2
    · exact iff_of_true (List.mem_append_right _ List.mem_cons_self) hcompleted
    · rw [← hfigures]
      exact hunplaced

end XmlHighlight
