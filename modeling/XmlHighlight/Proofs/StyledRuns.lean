import XmlHighlight.Style.Run

/-!
# Styled runs — which ranges the runs of a buffer are

The runs of some classes are found in one pass, which makes the last run longer as long as the class
stays the same. They cover what has a class and nothing else, and no run goes on in the next one.

* `Run.Covers`, `Run.Before` — the bytes of a run, and runs that follow one another;
* `AreRunsOf` — the ranges that are runs of some classes;
* `AreRunsOf.skip`, `AreRunsOf.extend`, `AreRunsOf.push` — the runs after one more byte;
* `RunScan.Describes.step`, `areRunsOf_runsOf` — what one step of the pass keeps, and what the pass
  finds;
* `AreRunsOf.class_before`, `AreRunsOf.class_behind` — runs cannot be made longer.
-/

namespace XmlHighlight

namespace Run

/-- The byte at offset `i` belongs to the run. -/
def Covers (r : Run) (i : Nat) : Prop := r.start ≤ i ∧ i < r.stop

/-- A run has ended where another begins. If nothing lies between the two they have different
    classes. -/
def Before (r r' : Run) : Prop := r.stop ≤ r'.start ∧ (r.stop = r'.start → r.style ≠ r'.style)

end Run

/-- Ranges in order that are not empty and cover exactly the bytes that have a class. -/
structure AreRunsOf (classes : List (Option StyleClass)) (runs : List Run) : Prop where
  nonempty : ∀ r ∈ runs, r.start < r.stop
  inOrder : runs.Pairwise Run.Before
  covers : ∀ i style, (∃ r ∈ runs, r.Covers i ∧ r.style = style) ↔ classes[i]? = some (some style)

namespace AreRunsOf

variable {classes : List (Option StyleClass)} {runs : List Run} {r r' : Run} {style : StyleClass}
  {i : Nat}

theorem nil : AreRunsOf [] [] := ⟨by simp, .nil, by simp⟩

/-- The last byte of a run has a class, so it is there. -/
theorem stop_le (h : AreRunsOf classes runs) (hr : r ∈ runs) : r.stop ≤ classes.length := by
  have hne := h.nonempty r hr
  have hlast := (h.covers (r.stop - 1) r.style).mp ⟨r, hr, ⟨by omega, by omega⟩, rfl⟩
  have hlt := (List.getElem?_eq_some_iff.mp hlast).1
  omega

/-! ### One more byte -/

/-- The bytes of a class after one more class has been found. -/
theorem getElem?_concat_eq_some_iff {c : Option StyleClass} :
    (classes ++ [c])[i]? = some (some style) ↔
      classes[i]? = some (some style) ∨ i = classes.length ∧ c = some style := by
  rcases Nat.lt_trichotomy i classes.length with hlt | rfl | hgt
  · rw [List.getElem?_append_left hlt]
    constructor
    · exact .inl
    · rintro (h | ⟨rfl, -⟩)
      · exact h
      · exact absurd hlt (Nat.lt_irrefl _)
  · rw [List.getElem?_concat_length, List.getElem?_eq_none (Nat.le_refl _)]
    simp
  · rw [List.getElem?_eq_none (by rw [List.length_append]; exact hgt),
      List.getElem?_eq_none (Nat.le_of_lt hgt)]
    have hne : i ≠ classes.length := Nat.ne_of_gt hgt
    simp [hne]

/-- A byte belongs to one of several runs, or to the last one. -/
theorem exists_covers_concat {last : Run} :
    (∃ r ∈ runs ++ [last], r.Covers i ∧ r.style = style) ↔
      (∃ r ∈ runs, r.Covers i ∧ r.style = style) ∨ last.Covers i ∧ last.style = style := by
  simp only [List.mem_append, List.mem_singleton, or_and_right, exists_or, exists_eq_left]

/-- A byte without a class belongs to no run. -/
theorem skip (h : AreRunsOf classes runs) : AreRunsOf (classes ++ [none]) runs := by
  refine ⟨h.nonempty, h.inOrder, fun i style => ?_⟩
  rw [h.covers, getElem?_concat_eq_some_iff]
  simp

/-- A byte of the class of a run that ends there makes the run longer. -/
theorem extend {start : Nat} (h : AreRunsOf classes (runs ++ [⟨start, classes.length, style⟩])) :
    AreRunsOf (classes ++ [some style]) (runs ++ [⟨start, classes.length + 1, style⟩]) := by
  have hne : start < classes.length := h.nonempty ⟨start, classes.length, style⟩ (by simp)
  refine ⟨?_, ?_, fun i style' => ?_⟩
  · intro r hr
    rcases List.mem_append.mp hr with hr | hr
    · exact h.nonempty r (List.mem_append_left _ hr)
    · obtain rfl := List.mem_singleton.mp hr
      exact Nat.lt_succ_of_lt hne
  · -- Only where the last run begins matters to the runs before it.
    obtain ⟨hruns, -, hlast⟩ := List.pairwise_append.mp h.inOrder
    refine List.pairwise_append.mpr ⟨hruns, List.pairwise_singleton _ _, fun r hr r' hr' => ?_⟩
    obtain rfl := List.mem_singleton.mp hr'
    exact hlast r hr ⟨start, classes.length, style⟩ List.mem_cons_self
  · rw [exists_covers_concat, getElem?_concat_eq_some_iff, ← h.covers, exists_covers_concat,
      Option.some.injEq, or_assoc]
    refine or_congr_right ?_
    show (start ≤ i ∧ i < classes.length + 1) ∧ style = style' ↔
      (start ≤ i ∧ i < classes.length) ∧ style = style' ∨ i = classes.length ∧ style = style'
    rw [← or_and_right]
    have hbytes : start ≤ i ∧ i < classes.length + 1 ↔
        start ≤ i ∧ i < classes.length ∨ i = classes.length := by omega
    rw [hbytes]

/-- A byte of any class begins a run if no run of its class ends there. -/
theorem push (h : AreRunsOf classes runs)
    (hother : ∀ r ∈ runs, r.stop = classes.length → r.style ≠ style) :
    AreRunsOf (classes ++ [some style])
      (runs ++ [⟨classes.length, classes.length + 1, style⟩]) := by
  refine ⟨?_, ?_, fun i style' => ?_⟩
  · intro r hr
    rcases List.mem_append.mp hr with hr | hr
    · exact h.nonempty r hr
    · obtain rfl := List.mem_singleton.mp hr
      exact Nat.lt_succ_self _
  · refine List.pairwise_append.mpr ⟨h.inOrder, List.pairwise_singleton _ _, fun r hr r' hr' => ?_⟩
    obtain rfl := List.mem_singleton.mp hr'
    exact ⟨h.stop_le hr, hother r hr⟩
  · -- The new run covers the new byte and no other.
    rw [exists_covers_concat, getElem?_concat_eq_some_iff, ← h.covers, Option.some.injEq]
    refine or_congr_right ?_
    show (classes.length ≤ i ∧ i < classes.length + 1) ∧ style = style' ↔
      i = classes.length ∧ style = style'
    have hbyte : classes.length ≤ i ∧ i < classes.length + 1 ↔ i = classes.length := by omega
    rw [hbyte]

end AreRunsOf

/-! ### The pass -/

/-- The runs that a pass has found are those of the classes that it has gone through. -/
structure RunScan.Describes (scan : RunScan) (done : List (Option StyleClass)) : Prop where
  offset_eq : scan.offset = done.length
  runs : AreRunsOf done scan.runs.reverse

namespace RunScan.Describes

variable {scan : RunScan} {done : List (Option StyleClass)}

/-- If the last run does not end here, or is of another class, no run of this class ends here. -/
theorem style_ne {last : Run} {earlier : List Run} {style : StyleClass}
    (h : AreRunsOf done (last :: earlier).reverse)
    (hlast : ¬ (last.stop = done.length ∧ last.style = style)) :
    ∀ r ∈ (last :: earlier).reverse, r.stop = done.length → r.style ≠ style := by
  have hends := h.stop_le (r := last) (by simp)
  have hne := h.nonempty last (by simp)
  have horder := h.inOrder
  rw [List.reverse_cons] at horder
  intro r hr hstop hstyle
  rcases List.mem_cons.mp (List.mem_reverse.mp hr) with rfl | hr
  · exact hlast ⟨hstop, hstyle⟩
  · have hbefore := (List.pairwise_append.mp horder).2.2 r (List.mem_reverse.mpr hr) last
      List.mem_cons_self
    have hle : r.stop ≤ last.start := hbefore.1
    omega

/-- **Step.** The class of the next byte. -/
theorem step (h : scan.Describes done) (c : Option StyleClass) :
    (scan.step c).Describes (done ++ [c]) := by
  obtain ⟨runs, offset⟩ := scan
  obtain ⟨hoffset, hruns⟩ := h
  obtain rfl : offset = done.length := hoffset
  have hlength : done.length + 1 = (done ++ [c]).length := by simp
  cases c with
  | none => exact ⟨hlength, hruns.skip⟩
  | some style =>
    cases runs with
    | nil => exact ⟨hlength, hruns.push (by simp)⟩
    | cons last earlier =>
      obtain ⟨start, stop, lastStyle⟩ := last
      by_cases hends : stop = done.length ∧ lastStyle = style
      · -- The last run ends here and is of this class.
        simp only [RunScan.step, if_pos hends]
        obtain ⟨rfl, rfl⟩ := hends
        refine ⟨hlength, ?_⟩
        rw [List.reverse_cons] at hruns ⊢
        exact hruns.extend
      · -- No run of this class ends here, since the runs before the last one end earlier.
        simp only [RunScan.step, if_neg hends]
        refine ⟨hlength, ?_⟩
        rw [List.reverse_cons]
        exact hruns.push (style_ne hruns hends)

/-- **Run.** The classes of all bytes that are left. -/
theorem foldl (h : scan.Describes done) (rest : List (Option StyleClass)) :
    (rest.foldl RunScan.step scan).Describes (done ++ rest) := by
  induction rest generalizing scan done with
  | nil => rwa [List.append_nil]
  | cons c rest ih =>
    have hrest := ih (h.step c)
    rwa [List.append_assoc] at hrest

end RunScan.Describes

/-- The runs of some classes are what they are said to be. -/
theorem areRunsOf_runsOf (classes : Array (Option StyleClass)) :
    AreRunsOf classes.toList (runsOf classes) := by
  have hstart : RunScan.Describes ⟨[], 0⟩ [] := ⟨rfl, .nil⟩
  have hpass := (hstart.foldl classes.toList).runs
  rwa [Array.foldl_toList, List.nil_append] at hpass

/-! ### Both ends of a run -/

namespace AreRunsOf

variable {classes : List (Option StyleClass)} {runs : List Run} {r r' : Run} {i : Nat}

/-- Of two runs one comes before the other. -/
theorem eq_or_before (h : AreRunsOf classes runs) (hr : r ∈ runs) (hr' : r' ∈ runs) :
    r = r' ∨ r.Before r' ∨ r'.Before r := by
  obtain ⟨m, hm, rfl⟩ := List.getElem_of_mem hr
  obtain ⟨n, hn, rfl⟩ := List.getElem_of_mem hr'
  have horder := List.pairwise_iff_getElem.mp h.inOrder
  rcases Nat.lt_trichotomy m n with hlt | rfl | hgt
  · exact .inr (.inl (horder m n hm hn hlt))
  · exact .inl rfl
  · exact .inr (.inr (horder n m hn hm hgt))

/-- The byte behind a run is not of its class. -/
theorem class_behind (h : AreRunsOf classes runs) (hr : r ∈ runs) :
    classes[r.stop]? ≠ some (some r.style) := by
  intro hsame
  obtain ⟨r', hr', ⟨hstart, hstop⟩, hstyle⟩ := (h.covers r.stop r.style).mpr hsame
  -- The run that this byte belongs to would touch the other one.
  rcases h.eq_or_before hr hr' with rfl | ⟨hle, htouch⟩ | ⟨hle, -⟩
  · exact absurd hstop (Nat.lt_irrefl _)
  · exact htouch (Nat.le_antisymm hle hstart) hstyle.symm
  · have hne := h.nonempty r hr
    omega

/-- The byte before a run is not of its class. -/
theorem class_before (h : AreRunsOf classes runs) (hr : r ∈ runs) (hi : i + 1 = r.start) :
    classes[i]? ≠ some (some r.style) := by
  intro hsame
  obtain ⟨r', hr', ⟨hstart, hstop⟩, hstyle⟩ := (h.covers i r.style).mpr hsame
  rcases h.eq_or_before hr hr' with rfl | ⟨hle, -⟩ | ⟨hle, htouch⟩
  · omega
  · have hne := h.nonempty r hr
    omega
  · exact htouch (by omega) hstyle

end AreRunsOf

end XmlHighlight
