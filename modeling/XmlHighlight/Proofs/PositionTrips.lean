import XmlHighlight.Proofs.Bytes
import XmlHighlight.Proofs.Positions

/-!
# Position trips — offsets by way of lines and columns

A cursor that is asked for many positions walks forward, or starts again from the beginning. The
line index is a table. Both count the same lines, so that an offset comes back from its position,
and a position of a line comes back from its offset.

* `LineCursor.positions` — the positions of some offsets, asked for one after the other;
* `LineCursor.positions_eq` — none of them depends on those asked for before;
* `mem_lineStarts`, `lineStarts_sorted` — what the table holds;
* `LineCursor.pos_atOffset_of_lineStart` — the first position of a line;
* `LineCursor.pos_atOffset_add` — the positions behind it, up to the end of the line;
* `LineIndex.pos_moveTo_of_start` — a position of a line comes back from its offset;
* `offsets_survive_positions` — there and back in both directions.
-/

namespace XmlHighlight

variable (s : Source)

/-! ### One cursor, many offsets -/

namespace LineCursor

/-- The positions of some offsets, for which one cursor is asked in this order. -/
def positions (c : LineCursor) : List Nat → List TextPos
  | [] => []
  | i :: rest => (c.moveTo s i).pos :: positions (c.moveTo s i) rest

/-- A cursor on the text gives every offset the position that a new cursor would give it. -/
theorem positions_eq {i : Nat} (hi : i ≤ s.size) (offsets : List Nat) :
    (atOffset s i).positions s offsets = offsets.map fun j => (origin.moveTo s j).pos := by
  have horigin : origin = atOffset s 0 := rfl
  induction offsets generalizing i with
  | nil => rfl
  | cons j rest ih =>
    -- Wherever the cursor has come from, it stands at an offset of the text again.
    rw [positions, List.map_cons, moveTo_atOffset s hi, ih (Nat.min_le_right j s.size), horigin,
      moveTo_atOffset s (Nat.zero_le _)]

end LineCursor

/-! ### What the table holds -/

/-- The line starts among the first bytes are zero, and the offset after every newline. -/
theorem mem_lineStarts (n i : Nat) :
    i ∈ lineStarts s n ↔ i = 0 ∨ ∃ k < n, s.byte? k = some newline ∧ i = k + 1 := by
  -- The table grows by at most one entry with each byte that has been looked at.
  induction n with
  | zero => simp [lineStarts]
  | succ n ih =>
    rw [lineStarts_succ]
    by_cases hbyte : s.byte? n = some newline
    · rw [if_pos (by simp [hbyte]), Array.mem_push, ih]
      constructor
      · rintro ((h0 | ⟨k, hk, hnewline⟩) | rfl)
        · exact .inl h0
        · exact .inr ⟨k, by omega, hnewline⟩
        · exact .inr ⟨n, by omega, hbyte, rfl⟩
      · rintro (h0 | ⟨k, hk, hnewline, rfl⟩)
        · exact .inl (.inl h0)
        · by_cases hkn : k = n
          · exact .inr (by rw [hkn])
          · exact .inl (.inr ⟨k, by omega, hnewline, rfl⟩)
    · rw [if_neg (by simp [hbyte]), ih]
      constructor
      · rintro (h0 | ⟨k, hk, hnewline⟩)
        · exact .inl h0
        · exact .inr ⟨k, by omega, hnewline⟩
      · rintro (h0 | ⟨k, hk, hnewline, rfl⟩)
        · exact .inl h0
        · have hkn : k ≠ n := by
            rintro rfl
            exact hbyte hnewline
          exact .inr ⟨k, by omega, hnewline, rfl⟩

/-- Every line begins behind the one before. -/
theorem lineStarts_sorted (n : Nat) : (lineStarts s n).toList.Pairwise (· < ·) := by
  induction n with
  | zero => simp [lineStarts]
  | succ n ih =>
    rw [lineStarts_succ]
    split
    · rw [Array.toList_push, List.pairwise_append]
      refine ⟨ih, List.pairwise_singleton _ _, ?_⟩
      intro i hi j hj
      rw [List.mem_singleton.mp hj]
      rcases (mem_lineStarts s n i).mp (Array.mem_toList_iff.mp hi) with rfl | ⟨k, hk, -, rfl⟩
      · exact Nat.succ_pos n
      · omega
    · exact ih

/-- The first line starts at zero. -/
theorem head_lineStarts (n : Nat) : (lineStarts s n)[0]? = some 0 := by
  have h := lineStarts_add s 0 n 0 0 rfl
  rwa [Nat.zero_add] at h

/-! ### The positions of a line -/

namespace LineCursor

/-- A cursor at the start of a line is in the first column of that line. -/
theorem pos_atOffset_of_lineStart {n i start : Nat} (h : (lineStarts s n)[i]? = some start) :
    (atOffset s start).pos = ⟨i + 1, 1⟩ := by
  induction n with
  | zero =>
    obtain ⟨hi, rfl⟩ := Array.getElem?_eq_some_iff.mp h
    have hi' : i < 1 := hi
    obtain rfl : i = 0 := by omega
    rfl
  | succ n ih =>
    rw [lineStarts_succ] at h
    by_cases hbyte : (s.byte? n == some newline) = true
    · rw [if_pos hbyte, Array.getElem?_push] at h
      by_cases hi : i = (lineStarts s n).size
      · rw [if_pos hi, Option.some.injEq] at h
        -- This line begins behind the newline, one line further than the cursor is at the newline.
        subst h
        rw [atOffset_succ, step, offset_atOffset, if_pos hbyte, pos, (lineStarts_atOffset s n).1,
          hi]
      · rw [if_neg hi] at h
        exact ih h
    · rw [if_neg hbyte] at h
      exact ih h

/-- As long as no newline is passed the cursor stays on its line, one column further with each
    byte. -/
theorem pos_atOffset_add {start line : Nat} (h : (atOffset s start).pos = ⟨line, 1⟩) (n : Nat)
    (hline : ∀ k, start ≤ k → k < start + n → s.byte? k ≠ some newline) :
    (atOffset s (start + n)).pos = ⟨line, n + 1⟩ := by
  induction n with
  | zero => exact h
  | succ n ih =>
    have hpos := ih fun k hk hlt => hline k hk (by omega)
    have hbyte := hline (start + n) (Nat.le_add_right _ _) (by omega)
    simp only [pos, TextPos.mk.injEq] at hpos
    rw [← Nat.add_assoc, atOffset_succ, step, offset_atOffset, if_neg (by simpa using hbyte), pos]
    rw [hpos.1, hpos.2]

end LineCursor

namespace LineIndex

/-- The lines of a text begin at its beginning and behind each of its newlines. -/
theorem mem_starts_build (i : Nat) :
    i ∈ (build s).starts ↔ i = 0 ∨ ∃ k, s.byte? k = some newline ∧ i = k + 1 := by
  rw [starts_build, mem_lineStarts]
  constructor
  · rintro (h0 | ⟨k, -, hnewline⟩)
    · exact .inl h0
    · exact .inr ⟨k, hnewline⟩
  · rintro (h0 | ⟨k, hnewline, rfl⟩)
    · exact .inl h0
    · exact .inr ⟨k, Source.lt_size_of_byte? hnewline, hnewline, rfl⟩

variable {s}

/-- A line starts where the table says. -/
theorem offsetOfLine_of_start {i start : Nat} (h : (build s).starts[i]? = some start) :
    (build s).offsetOfLine (i + 1) = .ok start := by
  rw [offsetOfLine, h]

/-- A column that lies in the text has an offset. Offsets in the text are 64-bit words. -/
theorem offsetAt_of_start {i start column : Nat} (hsize : s.size < UInt64.size)
    (h : (build s).starts[i]? = some start) (hcolumn : 0 < column)
    (hle : start + (column - 1) ≤ s.size) :
    (build s).offsetAt ⟨i + 1, column⟩ = .ok (start + (column - 1)) := by
  have hsum : offsetSum start (column - 1) = start + (column - 1) := by
    rw [offsetSum, Nat.mod_eq_of_lt (Nat.lt_of_le_of_lt hle hsize)]
  have hin : ¬ (build s).size < start + (column - 1) := Nat.not_lt.mpr hle
  simp only [offsetAt, offsetOfLine_of_start h, hsum]
  rw [if_neg (by omega)]

/-- A column of a line that no newline comes before is the column of its own offset. -/
theorem pos_moveTo_of_start {i start column : Nat} (h : (build s).starts[i]? = some start)
    (hcolumn : 0 < column) (hle : start + (column - 1) ≤ s.size)
    (hline : ∀ k, start ≤ k → k < start + (column - 1) → s.byte? k ≠ some newline) :
    (LineCursor.origin.moveTo s (start + (column - 1))).pos = ⟨i + 1, column⟩ := by
  have hfirst := LineCursor.pos_atOffset_of_lineStart s h
  have hmove : LineCursor.origin.moveTo s (start + (column - 1)) = LineCursor.atOffset s _ :=
    LineCursor.moveTo_atOffset s (Nat.zero_le s.size) _
  rw [hmove, Nat.min_eq_left hle, LineCursor.pos_atOffset_add s hfirst _ hline]
  rw [Nat.sub_add_cancel hcolumn]

end LineIndex

/-! ### There and back -/

/-- **There and back.** Whatever offsets one cursor is asked for, and in whatever order, each
    position is the one that a new cursor would give, and the line index of the text takes it back
    to the offset, or to the end of the text if the offset lies beyond. Every line of the index has
    a start, and every column up to the newline of the line, or up to the end of the text, has an
    offset whose position is that line and column. The line starts are zero and the offsets after
    the newlines, in order. -/
theorem offsets_survive_positions (hsize : s.size < UInt64.size) :
    let index := LineIndex.build s
    (∀ offsets, LineCursor.origin.positions s offsets
        = offsets.map fun i => (LineCursor.origin.moveTo s i).pos) ∧
      (∀ offsets, (LineCursor.origin.positions s offsets).map index.offsetAt
        = offsets.map fun i => .ok (min i s.size)) ∧
      (∀ line, 0 < line → line ≤ index.lineCount → ∃ start, index.offsetOfLine line = .ok start ∧
        ∀ column, 0 < column → start + (column - 1) ≤ s.size →
          (∀ k, start ≤ k → k < start + (column - 1) → s.byte? k ≠ some newline) →
          ∃ i, index.offsetAt ⟨line, column⟩ = .ok i ∧
            (LineCursor.origin.moveTo s i).pos = ⟨line, column⟩) ∧
      index.starts.toList.Pairwise (· < ·) ∧ index.starts[0]? = some 0 ∧
      ∀ i, i ∈ index.starts ↔ i = 0 ∨ ∃ k, s.byte? k = some newline ∧ i = k + 1 := by
  intro index
  have hpositions : ∀ offsets, LineCursor.origin.positions s offsets = _ :=
    LineCursor.positions_eq s (Nat.zero_le s.size)
  refine ⟨hpositions, ?_, ?_, lineStarts_sorted s s.size, head_lineStarts s s.size,
    LineIndex.mem_starts_build s⟩
  · intro offsets
    rw [hpositions, List.map_map]
    refine List.map_congr_left fun i _ => ?_
    have hmove : LineCursor.origin.moveTo s i = LineCursor.atOffset s (min i s.size) :=
      LineCursor.moveTo_atOffset s (Nat.zero_le s.size) i
    rw [Function.comp_apply, hmove]
    exact LineIndex.offsetAt_atOffset s (Nat.min_le_right i s.size) hsize
  · intro line hline hcount
    obtain ⟨i, rfl⟩ : ∃ i, line = i + 1 := ⟨line - 1, by omega⟩
    have hstart : index.starts[i]? = some index.starts[i] := Array.getElem?_eq_getElem hcount
    refine ⟨index.starts[i], LineIndex.offsetOfLine_of_start hstart, ?_⟩
    intro column hcolumn hle hsame
    exact ⟨_, LineIndex.offsetAt_of_start hsize hstart hcolumn hle,
      LineIndex.pos_moveTo_of_start hstart hcolumn hle hsame⟩

/-- A text with a character of two bytes, a carriage return, an empty line and no newline at its
    end. The cursor goes forward, back and beyond the end. -/
theorem offsets_survive_positions_back_and_forth :
    let s := Source.ofText "ä\r\n\nx"
    s.size < UInt64.size ∧
      (LineCursor.origin.positions s [5, 0, 9, 3]).map (LineIndex.build s).offsetAt
        = [.ok 5, .ok 0, .ok 6, .ok 3] ∧
      ∃ start, (LineIndex.build s).offsetOfLine 3 = .ok start ∧
        0 < 2 ∧ start + (2 - 1) ≤ s.size ∧
        (∀ k, start ≤ k → k < start + (2 - 1) → s.byte? k ≠ some newline) ∧
        ∃ i, (LineIndex.build s).offsetAt ⟨3, 2⟩ = .ok i ∧
          (LineCursor.origin.moveTo s i).pos = ⟨3, 2⟩ := by
  intro s
  have hsize : s.size < UInt64.size := by decide +kernel
  have hcount : 3 ≤ (LineIndex.build s).lineCount := by decide +kernel
  have hthird : (LineIndex.build s).offsetOfLine 3 = .ok 5 :=
    LineIndex.offsetOfLine_of_start (i := 2) (by decide +kernel)
  have hend : 5 + (2 - 1) ≤ s.size := by decide +kernel
  have hline : ∀ k, 5 ≤ k → k < 5 + (2 - 1) → s.byte? k ≠ some newline := by
    intro k hk hlt
    obtain rfl : k = 5 := by omega
    decide +kernel
  obtain ⟨-, hback, hlines, -⟩ := offsets_survive_positions s hsize
  obtain ⟨start, hstart, hcolumns⟩ := hlines 3 (by decide) hcount
  obtain rfl : 5 = start := Except.ok.inj (hthird.symm.trans hstart)
  refine ⟨hsize, ?_, 5, hthird, by decide, hend, hline, hcolumns 2 (by decide) hend hline⟩
  rw [hback]
  have hsix : s.size = 6 := by decide +kernel
  simp [hsix]

end XmlHighlight
