import XmlHighlight.Proofs.Preemption
import XmlHighlight.Proofs.StepTokens

/-!
# Flush count — no more hand-outs than groups of lines

The lines of a document are divided into groups, and a scan hands out spans only when it comes to a
later group than at the last hand-out, and at its end. No token stands behind the last line, so
there are at most as many hand-outs as groups, and one more. Since the groups are made for a number
of hand-outs, there are at most about twice as many as were asked for: the lines of a group are a
quotient that has been rounded down.

* `Source.line_posOf_le`, `line_of_mem_tokens` — the lines on which tokens stand;
* `Scanner.Spaced` — what holds of the hand-outs of a scan under way;
* `Plan.length_flushes_run_le` — a scan that is stopped hands out no more than one that is not;
* `Settings.groups_lt` — how many groups of lines there are;
* `flushes_are_few` — the hand-outs of a scan over a document.
-/

namespace XmlHighlight

/-! ### The lines of tokens -/

/-- There are no fewer lines among more bytes. -/
theorem size_lineStarts_mono (s : Source) {i j : Nat} (h : i ≤ j) :
    (lineStarts s i).size ≤ (lineStarts s j).size := by
  obtain ⟨n, rfl⟩ := Nat.exists_eq_add_of_le h
  induction n with
  | zero => exact Nat.le_refl _
  | succ n ih =>
    have hbefore := ih (Nat.le_add_right i n)
    rw [← Nat.add_assoc, lineStarts_succ]
    split
    · rw [Array.size_push]
      exact Nat.le_succ_of_le hbefore
    · exact hbefore

/-- No position lies behind the last line. -/
theorem Source.line_posOf_le (s : Source) (i : Nat) :
    (s.posOf i).line ≤ (LineIndex.build s).lineCount := by
  show (LineCursor.atOffset s (min i s.size)).line ≤ (LineIndex.build s).starts.size
  rw [(lineStarts_atOffset s _).1, starts_build]
  exact size_lineStarts_mono s (Nat.min_le_right i s.size)

/-- The token of a step has the position of an offset. -/
theorem exists_pos_of_tokenOf? {s : Source} {step : Step} {token : Token}
    (h : tokenOf? s step = some token) :
    ∃ i, token.pos = s.posOf i := by
  unfold tokenOf? at h
  split at h
  · split at h <;> cases h <;> exact ⟨_, rfl⟩
  · unfold endTagOf? at h
    split at h
    · split at h
      · cases h
      · obtain ⟨i, -, rfl⟩ := Option.map_eq_some_iff.mp h
        exact ⟨_, rfl⟩
    · cases h

/-- No token of a document stands behind the last line. -/
theorem line_of_mem_tokens {s : Source} {found : Array Token} (h : tokens s = .ok found) :
    ∀ token ∈ found.toList, token.pos.line ≤ (LineIndex.build s).lineCount := by
  intro token htoken
  obtain ⟨root, rfl⟩ : ∃ root, found = tokensOf s root := by
    unfold tokens at h
    cases hparse : Xml.parse s with
    | error e => simp [hparse, Except.map] at h
    | ok root => exact ⟨root, by simpa [hparse, Except.map] using h.symm⟩
  rw [tokensOf_eq_filterMap] at htoken
  obtain ⟨step, -, hstep⟩ := List.mem_filterMap.mp htoken
  obtain ⟨i, hi⟩ := exists_pos_of_tokenOf? hstep
  rw [hi]
  exact s.line_posOf_le i

/-! ### A scan under way -/

variable {s : Source} {index : LineIndex} {sc : Scanner} (settings : Settings)

/-- The number of the last group of lines, counted from zero. -/
def lastGroup (index : LineIndex) (settings : Settings) : Nat :=
  index.lineCount / settings.reportingInterval index.lineCount

namespace Scanner

/-- There have been no more hand-outs than there are groups of lines up to that of the last one,
    which is one of the groups. -/
structure Spaced (index : LineIndex) (settings : Settings) (sc : Scanner) : Prop where
  first : sc.bucket = none → flushesOf sc.actions.toList = []
  later : ∀ bucket, sc.bucket = some bucket →
    (flushesOf sc.actions.toList).length ≤ bucket + 1 ∧ bucket ≤ lastGroup index settings

theorem spaced_start : start.Spaced index settings := ⟨fun _ => rfl, fun _ h => nomatch h⟩

/-- Every group up to the last may have had its hand-out. -/
theorem Spaced.length_le (h : sc.Spaced index settings) :
    (flushesOf sc.actions.toList).length ≤ lastGroup index settings + 1 := by
  cases hbucket : sc.bucket with
  | none =>
    rw [h.first hbucket]
    exact Nat.zero_le _
  | some bucket =>
    obtain ⟨hlength, hle⟩ := h.later bucket hbucket
    omega

/-- Neither a poll nor taking a token is a hand-out. -/
theorem Spaced.pull (h : sc.Spaced index settings) : (sc.pull settings).Spaced index settings := by
  have hflushes : flushesOf (sc.pull settings).actions.toList = flushesOf sc.actions.toList := by
    rw [actions_pull, flushesOf_append, pullActions]
    split <;> simp
  refine ⟨?_, ?_⟩ <;> rw [hflushes]
  · exact h.first
  · exact h.later

/-- A hand-out takes place in a later group than the one before. -/
theorem Spaced.reach (h : sc.Spaced index settings) {line : Nat} (hline : line ≤ index.lineCount) :
    (sc.reach index settings line).Spaced index settings := by
  simp only [Scanner.reach]
  split
  · next hlater =>
    refine ⟨by simp, ?_⟩
    rintro bucket ⟨⟩
    refine ⟨?_, Nat.div_le_div_right hline⟩
    simp only [Array.toList_push, flushesOf_append, flushesOf_flush, flushesOf_nil,
      List.length_append, List.length_cons, List.length_nil]
    cases hbucket : sc.bucket with
    | none =>
      rw [h.first hbucket, List.length_nil]
      exact Nat.le_add_left 1 _
    | some before =>
      have hlength := (h.later before hbucket).1
      -- A flush has been made since the line is in a later group than the one before.
      have hlt : before < line / settings.reportingInterval index.lineCount := by
        simpa [hbucket] using hlater
      omega
  · exact h

/-- **Step.** The hand-outs stay that few if the next token stands on a line of the text. -/
theorem Spaced.take (h : sc.Spaced index settings) {token : Token}
    (hline : token.pos.line ≤ index.lineCount) :
    (sc.take s index settings (.ok token)).1.Spaced index settings := by
  -- The spans of the token go to the batch, which has no part in the flushes made so far.
  have hreach := (h.pull settings).reach settings hline
  have hactions : (sc.take s index settings (.ok token)).1.actions
      = ((sc.pull settings).reach index settings token.pos.line).actions := by
    unfold Scanner.take
    dsimp only
    split <;> rfl
  have hbucket : (sc.take s index settings (.ok token)).1.bucket
      = ((sc.pull settings).reach index settings token.pos.line).bucket := by
    unfold Scanner.take
    dsimp only
    split <;> rfl
  refine ⟨?_, ?_⟩ <;> rw [hactions, hbucket]
  · exact hreach.first
  · exact hreach.later

/-- **Run.** By induction on the tokens that are left. The end of a scan may be one more
    hand-out. -/
theorem Spaced.takeAll (h : sc.Spaced index settings) {found : List Token}
    (hlines : ∀ token ∈ found, token.pos.line ≤ index.lineCount) :
    (flushesOf (sc.takeAll s index settings (found.map .ok)).actions.toList).length
      ≤ lastGroup index settings + 2 := by
  induction found generalizing sc with
  | nil =>
    have hlength := h.length_le
    -- The last flush is the one at the end, which has no group of its own.
    simp only [List.map_nil, Scanner.takeAll, finish, Array.toList_push, flushesOf_append,
      flushesOf_flush, flushesOf_nil, List.length_append, List.length_cons, List.length_nil]
    omega
  | cons token rest ih =>
    obtain ⟨hline, hrest⟩ := List.forall_mem_cons.mp hlines
    have hstep : (sc.take s index settings (.ok token)).1.Spaced index settings :=
      h.take settings hline
    rw [List.map_cons, takeAll_cons]
    cases itemFailure s index (.ok token) with
    | none => exact ih hstep hrest
    | some e => exact Nat.le_succ_of_le hstep.length_le

end Scanner

/-! ### A whole scan -/

/-- A scan of a document plans no more hand-outs than there are groups, and one at its end. -/
theorem length_flushes_documentPlan (s : Source) :
    (flushesOf (documentPlan s (.build s) settings).actions.toList).length
      ≤ lastGroup (.build s) settings + 2 := by
  unfold documentPlan
  split
  · -- A blank document has the last hand-out only.
    exact Nat.le_trans (Nat.le_succ 1) (Nat.le_add_left 2 _)
  · split
    · exact Nat.zero_le _
    · next found htokens =>
      rw [planOf, if_pos rfl]
      exact (Scanner.spaced_start settings).takeAll settings (line_of_mem_tokens htokens)

/-- A scan hands out what it plans to, or a part of it if it is stopped. -/
theorem Plan.length_flushes_run_le (plan : Plan) (cancel : Nat → Bool) :
    (plan.run cancel).flushes.size ≤ (flushesOf plan.actions.toList).length := by
  have hsize (actions : List Action) :
      ((nothingDone plan.ending).after actions).flushes.size = (flushesOf actions).length := by
    simp [Report.after, nothingDone]
  rcases runActions_cases cancel plan.ending plan.actions.toList (nothingDone plan.ending) with
    hrun | ⟨before, after, hactions, hrun⟩
  · have hrun : plan.run cancel = _ := hrun
    rw [hrun]
    exact Nat.le_of_eq (hsize _)
  · have hrun : plan.run cancel = _ := hrun
    rw [hrun, hactions]
    refine Nat.le_trans (Nat.le_of_eq (hsize _)) ?_
    rw [flushesOf_append, flushesOf_append, List.length_append, List.length_append, flushesOf_poll]
    exact Nat.add_le_add_left (Nat.zero_le _) _

/-! ### How many groups there are -/

/-- There are fewer groups than twice the number of hand-outs that are asked for, which is at least
    one. -/
theorem Settings.groups_lt (settings : Settings) (lines : Nat) :
    lines / settings.reportingInterval lines < 2 * max settings.flushesPerDocument 1 := by
  unfold reportingInterval
  generalize hf : max settings.flushesPerDocument 1 = f
  have hpos : 0 < f := by omega
  have hquotient : lines / f ≤ max (max (lines / f) settings.minReportingInterval) 1 := by omega
  by_cases hfew : lines < f
  · -- Then every group has at least one line, and there are no more groups than lines.
    calc lines / max (max (lines / f) settings.minReportingInterval) 1
        ≤ lines := Nat.div_le_self _ _
      _ < 2 * f := by omega
  · -- The lines of a group are rounded down to the quotient, and the rest is less than one line for
    -- each group.
    have hsome : 0 < lines / f := Nat.div_pos (Nat.not_lt.mp hfew) hpos
    have hbelow : lines < lines / f * f + f := Nat.lt_div_mul_add hpos
    have hrest : f ≤ lines / f * f := Nat.le_mul_of_pos_left f hsome
    calc lines / max (max (lines / f) settings.minReportingInterval) 1
        ≤ lines / (lines / f) := Nat.div_le_div_left hquotient hsome
      _ < 2 * f := by
        rw [Nat.div_lt_iff_lt_mul hsome, Nat.mul_assoc, Nat.mul_comm f, Nat.two_mul]
        omega

/-- **Few hand-outs.** Whatever the document, the settings and the answers to the polls: a scan with
    the line index of the document hands out spans at most once for each group of lines and once at
    its end. So it does so at most twice as often as it is asked to, and once more, however many
    lines there are. A zero asks for one hand-out. -/
theorem flushes_are_few (s : Source) (settings : Settings) (cancel : Nat → Bool) :
    let lines := (LineIndex.build s).lineCount
    let report := (documentPlan s (.build s) settings).run cancel
    report.flushes.size ≤ lines / settings.reportingInterval lines + 2 ∧
      report.flushes.size ≤ 2 * max settings.flushesPerDocument 1 + 1 := by
  intro lines report
  have hfew : report.flushes.size ≤ lines / settings.reportingInterval lines + 2 :=
    Nat.le_trans (Plan.length_flushes_run_le _ cancel) (length_flushes_documentPlan settings s)
  have hgroups : lines / settings.reportingInterval lines < 2 * max settings.flushesPerDocument 1 :=
    settings.groups_lt lines
  exact ⟨hfew, by omega⟩

end XmlHighlight
