import Mathlib.Tactic.ByContra
import XmlHighlight.Proofs.PositionTrips

/-!
# Line offsets — which positions have an offset, and which one

A line of a text begins behind as many newlines as there are lines before it. A position has an
offset if the line is one of the text and the column does not lead past the end of the text. The
offset is a sum of 64-bit words, and so this law holds as long as the sum is one. A column that
makes the sum overflow is taken for a place near the beginning of the text.

* `Source.newlinesBefore`, `Source.IsLineStart` — where a line begins, told without the table;
* `getElem?_lineStarts_iff`, `LineIndex.offsetOfLine_eq_ok_iff` — the table holds these places;
* `LineIndex.offsetAt_of_le`, `LineIndex.offsetAt_of_past_end`, `LineIndex.offsetAt_of_overflow` —
  the three things that can become of a column;
* `Source.HasExactOffset` — the law;
* `offsets_are_exact_unless_overflow` — where it holds, and what happens elsewhere.
-/

namespace XmlHighlight

variable (s : Source)

/-! ### Where lines begin -/

/-- How many newlines stand before offset `i`. -/
def Source.newlinesBefore (i : Nat) : Nat :=
  (List.range i).countP fun k => s.byte? k == some newline

/-- A line, counted from one, begins at offset `i`: as many newlines stand before as there are lines
    before, the last of them immediately. -/
structure Source.IsLineStart (line i : Nat) : Prop where
  le_size : i ≤ s.size
  newlines : s.newlinesBefore i + 1 = line
  behind : i = 0 ∨ s.byte? (i - 1) = some newline

namespace Source

theorem newlinesBefore_succ (i : Nat) :
    s.newlinesBefore (i + 1) = s.newlinesBefore i + if s.byte? i == some newline then 1 else 0 := by
  rw [newlinesBefore, List.range_succ, List.countP_append, List.countP_singleton]
  rfl

theorem newlinesBefore_mono {i j : Nat} (h : i ≤ j) : s.newlinesBefore i ≤ s.newlinesBefore j :=
  (List.range_sublist.mpr h).countP_le

end Source

/-- There is a line start for each newline, and one for the first line. -/
theorem size_lineStarts (n : Nat) : (lineStarts s n).size = s.newlinesBefore n + 1 := by
  induction n with
  | zero => rfl
  | succ n ih =>
    rw [lineStarts_succ, s.newlinesBefore_succ]
    split
    · rw [Array.size_push, ih]
    · rw [ih]

/-- The entry of a line in the table is the place where it begins. -/
theorem getElem?_lineStarts_iff (n k i : Nat) :
    (lineStarts s n)[k]? = some i ↔
      i ≤ n ∧ s.newlinesBefore i = k ∧ (i = 0 ∨ s.byte? (i - 1) = some newline) := by
  induction n with
  | zero =>
    constructor
    · intro h
      obtain ⟨hk, rfl⟩ := Array.getElem?_eq_some_iff.mp h
      have hk' : k < 1 := hk
      obtain rfl : k = 0 := by omega
      exact ⟨Nat.le_refl 0, rfl, .inl rfl⟩
    · rintro ⟨hi, rfl, -⟩
      obtain rfl := Nat.le_zero.mp hi
      rfl
  | succ n ih =>
    rw [lineStarts_succ]
    by_cases hbyte : s.byte? n = some newline
    · -- A newline adds an entry behind all others, and only the place behind it has as many
      -- newlines before.
      have hnext : s.newlinesBefore (n + 1) = s.newlinesBefore n + 1 := by
        rw [s.newlinesBefore_succ, if_pos (by rw [hbyte]; rfl)]
      rw [if_pos (by rw [hbyte]; rfl), Array.getElem?_push, size_lineStarts]
      by_cases hk : k = s.newlinesBefore n + 1
      · rw [if_pos hk, Option.some.injEq]
        constructor
        · rintro rfl
          exact ⟨Nat.le_refl _, hnext.trans hk.symm, .inr hbyte⟩
        · rintro ⟨hi, hnewlines, -⟩
          by_contra hne
          have hmono := s.newlinesBefore_mono (show i ≤ n by omega)
          omega
      · rw [if_neg hk, ih]
        constructor
        · rintro ⟨hi, hrest⟩
          exact ⟨by omega, hrest⟩
        · rintro ⟨hi, hnewlines, hbehind⟩
          have hne : i ≠ n + 1 := by
            rintro rfl
            exact hk (hnewlines.symm.trans hnext)
          exact ⟨by omega, hnewlines, hbehind⟩
    · rw [if_neg (by simpa using hbyte), ih]
      constructor
      · rintro ⟨hi, hrest⟩
        exact ⟨by omega, hrest⟩
      · rintro ⟨hi, hnewlines, hbehind⟩
        have hne : i ≠ n + 1 := by
          rintro rfl
          exact hbyte (hbehind.resolve_left (Nat.succ_ne_zero n))
        exact ⟨by omega, hnewlines, hbehind⟩

namespace LineIndex

variable {s}

/-- There is one line more than there are newlines. -/
theorem lineCount_build : (build s).lineCount = s.newlinesBefore s.size + 1 :=
  size_lineStarts s s.size

/-- **Lines.** The offset of a line is the place where it begins. -/
theorem offsetOfLine_eq_ok_iff {line start : Nat} :
    (build s).offsetOfLine line = .ok start ↔ s.IsLineStart line start := by
  -- Lines are counted from one, and the entries of the table from zero.
  cases line with
  | zero =>
    constructor
    · intro h
      cases h
    · rintro ⟨-, hline, -⟩
      cases hline
  | succ i =>
    have hentry := getElem?_lineStarts_iff s s.size i start
    rw [offsetOfLine, starts_build]
    constructor
    · intro h
      split at h
      · next start' hstart =>
        obtain rfl := Except.ok.inj h
        obtain ⟨hle, hnewlines, hbehind⟩ := hentry.mp hstart
        exact ⟨hle, by rw [hnewlines], hbehind⟩
      · cases h
    · rintro ⟨hle, hnewlines, hbehind⟩
      rw [hentry.mpr ⟨hle, Nat.succ.inj hnewlines, hbehind⟩]

/-- The lines of the text have a place where they begin, and no others. -/
theorem exists_isLineStart_iff {line : Nat} :
    (0 < line ∧ line ≤ (build s).lineCount) ↔ ∃ start, s.IsLineStart line start := by
  constructor
  · rintro ⟨hpos, hle⟩
    obtain ⟨i, rfl⟩ : ∃ i, line = i + 1 := ⟨line - 1, by omega⟩
    have hstart : (build s).starts[i]? = some (build s).starts[i] := Array.getElem?_eq_getElem hle
    exact ⟨_, offsetOfLine_eq_ok_iff.mp (offsetOfLine_of_start hstart)⟩
  · rintro ⟨start, hle, rfl, -⟩
    refine ⟨Nat.succ_pos _, ?_⟩
    rw [lineCount_build]
    exact Nat.succ_le_succ (s.newlinesBefore_mono hle)

/-- A line that the text does not have. -/
theorem offsetAt_of_no_line {pos : TextPos}
    (h : ¬ (0 < pos.line ∧ pos.line ≤ (build s).lineCount)) :
    (build s).offsetAt pos = .error (.outOfRange pos.line (build s).lineCount) := by
  have hline : (build s).offsetOfLine pos.line
    = .error (.outOfRange pos.line (build s).lineCount) := by
    obtain ⟨line, column⟩ := pos
    cases line with
    | zero => rfl
    | succ i =>
      have hnone : (build s).starts[i]? = none := by
        refine Array.getElem?_eq_none (Nat.le_of_not_lt fun hi => h ⟨Nat.succ_pos i, hi⟩)
      rw [offsetOfLine, hnone]
  rw [offsetAt, hline]

/-! ### What becomes of a column -/

variable {pos : TextPos} {start : Nat}

/-- Columns are counted from one, so column zero lies past the end. -/
theorem offsetAt_of_column_zero (h : s.IsLineStart pos.line start) (hcolumn : pos.column = 0) :
    (build s).offsetAt pos = .error (.pastEnd pos.line pos.column s.size) := by
  rw [offsetAt, offsetOfLine_eq_ok_iff.mpr h]
  exact if_pos (.inl hcolumn)

/-- A column that leads to a place in the text. -/
theorem offsetAt_of_le (hsize : s.size < UInt64.size) (h : s.IsLineStart pos.line start)
    (hcolumn : 0 < pos.column) (hle : start + (pos.column - 1) ≤ s.size) :
    (build s).offsetAt pos = .ok (start + (pos.column - 1)) := by
  have hsum : offsetSum start (pos.column - 1) = start + (pos.column - 1) :=
    Nat.mod_eq_of_lt (Nat.lt_of_le_of_lt hle hsize)
  have hnot : ¬ (pos.column = 0 ∨ (build s).size < start + (pos.column - 1)) := by
    rintro (hzero | hpast)
    · omega
    · exact Nat.not_lt.mpr hle hpast
  rw [offsetAt, offsetOfLine_eq_ok_iff.mpr h]
  simp only [hsum]
  rw [if_neg hnot]

/-- A column that leads past the end of the text, to a place whose offset is still a 64-bit word. -/
theorem offsetAt_of_past_end (h : s.IsLineStart pos.line start)
    (hpast : s.size < start + (pos.column - 1))
    (hfits : start + (pos.column - 1) < UInt64.size) :
    (build s).offsetAt pos = .error (.pastEnd pos.line pos.column s.size) := by
  have hsum : offsetSum start (pos.column - 1) = start + (pos.column - 1) := Nat.mod_eq_of_lt hfits
  rw [offsetAt, offsetOfLine_eq_ok_iff.mpr h]
  simp only [hsum]
  exact if_pos (.inr hpast)

/-- A column that makes the sum overflow is taken for a place before its own line. -/
theorem offsetAt_of_overflow (hsize : s.size < UInt64.size) (hcolumn : pos.column < UInt64.size)
    (h : s.IsLineStart pos.line start) (hover : UInt64.size ≤ start + (pos.column - 1)) :
    (build s).offsetAt pos = .ok (start + (pos.column - 1) - UInt64.size) ∧
      start + (pos.column - 1) - UInt64.size < start := by
  have hle : start ≤ s.size := h.le_size
  have hbefore : start + (pos.column - 1) - UInt64.size < start := by omega
  have hsum : offsetSum start (pos.column - 1) = start + (pos.column - 1) - UInt64.size := by
    rw [offsetSum, Nat.mod_eq_sub_mod hover, Nat.mod_eq_of_lt (by omega)]
  have hnot : ¬ (pos.column = 0 ∨ (build s).size < start + (pos.column - 1) - UInt64.size) := by
    have hbuilt : (build s).size = s.size := rfl
    omega
  refine ⟨?_, hbefore⟩
  rw [offsetAt, offsetOfLine_eq_ok_iff.mpr h]
  simp only [hsum]
  rw [if_neg hnot]

end LineIndex

/-! ### The law -/

/-- What should become of a position: it has an offset if its line is one of the text and its
    column, counted from the start of the line, leads to a place in the text; otherwise the line, or
    the column, is reported. -/
structure Source.HasExactOffset (pos : TextPos) : Prop where
  ok_iff : ∀ i, (LineIndex.build s).offsetAt pos = .ok i ↔
    ∃ start, s.IsLineStart pos.line start ∧ 0 < pos.column ∧ start + (pos.column - 1) ≤ s.size ∧
      i = start + (pos.column - 1)
  past_end : ∀ start, s.IsLineStart pos.line start →
    ¬ (0 < pos.column ∧ start + (pos.column - 1) ≤ s.size) →
    (LineIndex.build s).offsetAt pos = .error (.pastEnd pos.line pos.column s.size)
  out_of_range : ¬ (0 < pos.line ∧ pos.line ≤ (LineIndex.build s).lineCount) →
    (LineIndex.build s).offsetAt pos = .error (.outOfRange pos.line (LineIndex.build s).lineCount)

variable {s}

/-- A line starts at one offset only. -/
theorem Source.IsLineStart.unique {line i j : Nat} (h : s.IsLineStart line i)
    (h' : s.IsLineStart line j) :
    i = j := by
  have hi := LineIndex.offsetOfLine_eq_ok_iff.mpr h
  rw [LineIndex.offsetOfLine_eq_ok_iff.mpr h'] at hi
  exact (Except.ok.inj hi).symm

/-- The law holds where no sum overflows. -/
theorem Source.hasExactOffset_of_fits {pos : TextPos} (hsize : s.size < UInt64.size)
    (hfits : ∀ start, s.IsLineStart pos.line start → start + (pos.column - 1) < UInt64.size) :
    s.HasExactOffset pos := by
  have hpast : ∀ start, s.IsLineStart pos.line start →
      ¬ (0 < pos.column ∧ start + (pos.column - 1) ≤ s.size) →
      (LineIndex.build s).offsetAt pos = .error (.pastEnd pos.line pos.column s.size) := by
    intro start hstart hnot
    by_cases hzero : pos.column = 0
    · exact LineIndex.offsetAt_of_column_zero hstart hzero
    · exact LineIndex.offsetAt_of_past_end hstart (by omega) (hfits start hstart)
  refine ⟨fun i => ⟨fun hok => ?_, ?_⟩, hpast, LineIndex.offsetAt_of_no_line⟩
  · -- A position with an offset has a line, and its column is not one of those that are reported.
    by_cases hline : 0 < pos.line ∧ pos.line ≤ (LineIndex.build s).lineCount
    · obtain ⟨start, hstart⟩ := LineIndex.exists_isLineStart_iff.mp hline
      by_cases hcolumn : 0 < pos.column ∧ start + (pos.column - 1) ≤ s.size
      · rw [LineIndex.offsetAt_of_le hsize hstart hcolumn.1 hcolumn.2] at hok
        exact ⟨start, hstart, hcolumn.1, hcolumn.2, (Except.ok.inj hok).symm⟩
      · rw [hpast start hstart hcolumn] at hok
        cases hok
    · rw [LineIndex.offsetAt_of_no_line hline] at hok
      cases hok
  · rintro ⟨start, hstart, hcolumn, hle, rfl⟩
    exact LineIndex.offsetAt_of_le hsize hstart hcolumn hle

/-- It fails where one does: the position should have been reported. -/
theorem Source.not_hasExactOffset_of_overflow {pos : TextPos} {start : Nat}
    (hsize : s.size < UInt64.size)
    (hcolumn : pos.column < UInt64.size) (hstart : s.IsLineStart pos.line start)
    (hover : UInt64.size ≤ start + (pos.column - 1)) : ¬ s.HasExactOffset pos := by
  intro h
  obtain ⟨hok, -⟩ := LineIndex.offsetAt_of_overflow hsize hcolumn hstart hover
  obtain ⟨start', hstart', -, hle, -⟩ := (h.ok_iff _).mp hok
  obtain rfl := hstart.unique hstart'
  omega

/-- **Offsets of positions.** A text has one line more than newlines, and each of its lines has a
    place where it begins. For any 64-bit column the law of offsets holds at a position if and only
    if the sum of the start of its line and of the columns before it is a 64-bit word, and then no
    addition overflows. Otherwise the position has an offset, which lies before its own line. -/
theorem offsets_are_exact_unless_overflow (pos : TextPos) (hsize : s.size < UInt64.size)
    (hcolumn : pos.column < UInt64.size) :
    (LineIndex.build s).lineCount = s.newlinesBefore s.size + 1 ∧
      ((0 < pos.line ∧ pos.line ≤ (LineIndex.build s).lineCount) ↔
      ∃ start, s.IsLineStart pos.line start) ∧
      (s.HasExactOffset pos ↔
        ∀ start, s.IsLineStart pos.line start → start + (pos.column - 1) < UInt64.size) ∧
      ∀ start, s.IsLineStart pos.line start → UInt64.size ≤ start + (pos.column - 1) →
        (LineIndex.build s).offsetAt pos = .ok (start + (pos.column - 1) - UInt64.size) ∧
          start + (pos.column - 1) - UInt64.size < start := by
  refine ⟨LineIndex.lineCount_build, LineIndex.exists_isLineStart_iff, ⟨fun h start hstart => ?_,
    Source.hasExactOffset_of_fits hsize⟩, fun start => LineIndex.offsetAt_of_overflow hsize hcolumn⟩
  by_contra hover
  exact Source.not_hasExactOffset_of_overflow hsize hcolumn hstart (Nat.le_of_not_lt hover) h

/-- The largest column of the second line for which the sum is a word, and the one after it. -/
theorem offsets_are_exact_up_to_overflow :
    let s := Source.ofText "a\nb"
    s.size < UInt64.size ∧ UInt64.size - 1 < UInt64.size ∧ s.IsLineStart 2 2 ∧
      s.HasExactOffset ⟨2, UInt64.size - 2⟩ ∧
      UInt64.size ≤ 2 + (UInt64.size - 1 - 1) ∧
      (LineIndex.build s).offsetAt ⟨2, UInt64.size - 1⟩ = .ok 0 := by
  intro s
  have hsize : s.size < UInt64.size := by decide +kernel
  have hstart : s.IsLineStart 2 2 :=
    ⟨by decide +kernel, by decide +kernel, .inr (by decide +kernel)⟩
  refine ⟨hsize, by decide, hstart, ?_, by decide, ?_⟩
  · have hlaw := (offsets_are_exact_unless_overflow ⟨2, UInt64.size - 2⟩ hsize (by decide)).2.2.1
    refine hlaw.mpr fun start h => ?_
    obtain rfl := hstart.unique h
    decide
  · exact ((offsets_are_exact_unless_overflow ⟨2, UInt64.size - 1⟩ hsize (by decide)).2.2.2 2 hstart
      (by decide)).1

/-- The law fails in the second line of a text of three bytes: the largest column has the offset
    zero. -/
theorem huge_column_wraps :
    let s := Source.ofText "a\nb"
    let pos : TextPos := ⟨2, UInt64.size - 1⟩
    s.size < UInt64.size ∧ pos.line < UInt64.size ∧ pos.column < UInt64.size ∧
      (LineIndex.build s).offsetAt pos = .ok 0 ∧ ¬ s.HasExactOffset pos := by
  intro s pos
  have hsize : s.size < UInt64.size := by decide +kernel
  have hstart : s.IsLineStart 2 2 :=
    ⟨by decide +kernel, by decide +kernel, .inr (by decide +kernel)⟩
  have hcolumn : pos.column < UInt64.size := by decide
  have hover : UInt64.size ≤ 2 + (pos.column - 1) := by decide
  have hwrapped : 2 + (pos.column - 1) - UInt64.size = 0 := by decide
  have hok := (LineIndex.offsetAt_of_overflow hsize hcolumn hstart hover).1
  rw [hwrapped] at hok
  exact ⟨hsize, by decide, hcolumn, hok,
    Source.not_hasExactOffset_of_overflow hsize hcolumn hstart hover⟩

end XmlHighlight
