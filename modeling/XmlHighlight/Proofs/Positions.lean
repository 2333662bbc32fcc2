import XmlHighlight.LineIndex

/-!
# Positions of offsets — there and back

A cursor that walks over a text counts lines and columns, and the line index of the text knows where
each line begins. So the offset of a position that a cursor has found is the offset at which the
cursor stands.

* `LineCursor.atOffset` — the cursor that stands at an offset;
* `LineCursor.moveTo_atOffset` — where a cursor stands does not depend on the way it has come;
* `lineStarts` — the line starts among the first bytes of a text;
* `LineIndex.offsetAt_atOffset` — the offset of the position of a cursor.
-/

namespace XmlHighlight

variable (s : Source)

namespace LineCursor

/-- The cursor that stands at an offset. -/
def atOffset (i : Nat) : LineCursor := origin.steps s i

/-- Steps can be taken in two parts. -/
theorem steps_add (m n : Nat) (c : LineCursor) : steps s (m + n) c = steps s n (steps s m c) := by
  induction m generalizing c with
  | zero => rw [Nat.zero_add, steps]
  | succ m ih => rw [Nat.succ_add, steps, ih, steps]

/-- Each step goes one byte further. -/
theorem offset_steps (n : Nat) (c : LineCursor) : (steps s n c).offset = c.offset + n := by
  induction n generalizing c with
  | zero => rfl
  | succ n ih =>
    have hstep : (c.step s).offset = c.offset + 1 := by
      unfold step
      split <;> rfl
    rw [steps, ih, hstep, Nat.add_assoc, Nat.add_comm 1 n]

@[simp] theorem offset_atOffset (i : Nat) : (atOffset s i).offset = i := by
  rw [atOffset, offset_steps, origin, Nat.zero_add]

theorem atOffset_succ (i : Nat) : atOffset s (i + 1) = (atOffset s i).step s :=
  steps_add s i 1 origin

/-- **Moving.** A cursor on the text moves to any offset, or to the end of the text if there is no
    such offset, whether it goes forward or has to start again. -/
theorem moveTo_atOffset {i : Nat} (hi : i ≤ s.size) (j : Nat) :
    (atOffset s i).moveTo s j = atOffset s (min j s.size) := by
  rw [moveTo, offset_atOffset]
  by_cases hj : j < i
  · rw [if_pos hj]
    rfl
  · rw [if_neg hj, offset_atOffset, atOffset, ← steps_add, atOffset]
    congr 1
    omega

end LineCursor

/-! ### Line starts -/

/-- The line starts among the first `n` bytes. -/
def lineStarts (n : Nat) : Array Nat :=
  n.fold (fun i _ starts => if s.byte? i == some newline then starts.push (i + 1) else starts) #[0]

/-- The index of a text holds all of its line starts. -/
theorem starts_build : (LineIndex.build s).starts = lineStarts s s.size := rfl

/-- The line behind a newline starts one byte further. -/
theorem lineStarts_succ (n : Nat) :
    lineStarts s (n + 1)
      = if s.byte? n == some newline then (lineStarts s n).push (n + 1) else lineStarts s n := by
  rw [lineStarts, Nat.fold_succ]
  rfl

/-- Later bytes add line starts at the end. -/
theorem lineStarts_add (m n i start : Nat) (h : (lineStarts s m)[i]? = some start) :
    (lineStarts s (m + n))[i]? = some start := by
  induction n with
  | zero => exact h
  | succ n ih =>
    rw [← Nat.add_assoc, lineStarts_succ]
    split
    · obtain ⟨hlt, -⟩ := Array.getElem?_eq_some_iff.mp ih
      rw [Array.getElem?_push, if_neg (Nat.ne_of_lt hlt), ih]
    · exact ih

/-- A cursor is on the line that began last, as many bytes behind its start as its column says. -/
theorem lineStarts_atOffset (n : Nat) :
    (LineCursor.atOffset s n).line = (lineStarts s n).size ∧
      0 < (LineCursor.atOffset s n).column ∧
      ∃ start, (lineStarts s n)[(LineCursor.atOffset s n).line - 1]? = some start ∧
        start + ((LineCursor.atOffset s n).column - 1) = n := by
  induction n with
  | zero => exact ⟨rfl, Nat.one_pos, 0, rfl, rfl⟩
  | succ n ih =>
    obtain ⟨hline, hcolumn, start, hstart, hn⟩ := ih
    rw [LineCursor.atOffset_succ, lineStarts_succ, LineCursor.step, LineCursor.offset_atOffset]
    -- A newline begins a line for both; any other byte is one more column.
    split
    · refine ⟨by simp [hline], Nat.one_pos, n + 1, ?_, rfl⟩
      rw [hline, Nat.add_sub_cancel, Array.getElem?_push_size]
    · refine ⟨hline, Nat.succ_pos _, start, hstart, ?_⟩
      show start + ((LineCursor.atOffset s n).column + 1 - 1) = n + 1
      omega

/-- **There and back.** The line index of a text takes the position of a cursor to the offset of the
    cursor. Offsets in the text are 64-bit words. -/
theorem LineIndex.offsetAt_atOffset {i : Nat} (hi : i ≤ s.size) (hsize : s.size < UInt64.size) :
    (LineIndex.build s).offsetAt (LineCursor.atOffset s i).pos = .ok i := by
  obtain ⟨hline, hcolumn, start, hstart, hsum⟩ := lineStarts_atOffset s i
  -- The line of `i` starts at or before `i`, so bytes after `i` do not change its entry.
  have hlater : (LineIndex.build s).starts[(LineCursor.atOffset s i).line - 1]? = some start := by
    rw [starts_build, ← Nat.add_sub_cancel' hi]
    exact lineStarts_add s i _ _ _ hstart
  have hpos : 0 < (LineCursor.atOffset s i).line := by
    have := (Array.getElem?_eq_some_iff.mp hstart).1
    omega
  have hofline : (LineIndex.build s).offsetOfLine (LineCursor.atOffset s i).line = .ok start := by
    rw [← Nat.sub_add_cancel hpos, LineIndex.offsetOfLine, hlater]
  have hoffset : offsetSum start ((LineCursor.atOffset s i).column - 1) = i := by
    rw [offsetSum, hsum, Nat.mod_eq_of_lt (Nat.lt_of_le_of_lt hi hsize)]
  have hle : ¬ (LineIndex.build s).size < i := Nat.not_lt.mpr hi
  simp only [LineIndex.offsetAt, LineCursor.pos, hofline, hoffset]
  rw [if_neg (by omega)]

end XmlHighlight
