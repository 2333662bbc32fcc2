import Mathlib.Data.List.Sort
import XmlHighlight.Proofs.StyledRuns

/-!
# Painting — what spans leave behind, and what runs say of it

Spans may overlap, be empty, come in any order and lead past the end of the text. Each of them
paints over what has been painted before, so that a byte has the class of the last span that covers
it. The runs of a buffer are spans of another kind: none of them overlaps another one, and there is
only one list of them.

* `Span.Covers`, `lastStyle?` — the bytes of a span, and the class that some spans give to a byte;
* `StyledBuffer.getElem?_paint`, `StyledBuffer.getElem?_foldl_paint` — one span, and any number of
  them;
* `StyledBuffer.foldl_applyBatch` — spans in one batch or in several;
* `IsLongestRun`, `AreRunsOf.mem_iff`, `AreRunsOf.unique` — what a run is by itself, and that the
  runs are all of these;
* `StyledBuffer.classes_repaint` — runs that are painted again;
* `painting_is_exact` — all of this for any buffer.
-/

namespace XmlHighlight

/-! ### The last span wins -/

/-- The byte at offset `i` belongs to the span. -/
def Span.Covers (span : Span) (i : Nat) : Prop := span.start ≤ i ∧ i < span.start + span.length

instance (span : Span) (i : Nat) : Decidable (span.Covers i) := inferInstanceAs (Decidable (_ ∧ _))

/-- The offset just past the span is a 64-bit word. -/
def Span.Fits (span : Span) : Prop := span.start + span.length < UInt64.size

/-- The end of a span that fits has not been wrapped around. -/
theorem Span.Fits.stop_eq {span : Span} (h : span.Fits) : span.stop = span.start + span.length :=
  Nat.mod_eq_of_lt h

/-- The class that some spans give to the byte at offset `i`: that of the last one which covers
    it. -/
def lastStyle? (spans : List Span) (i : Nat) : Option StyleClass :=
  (spans.reverse.find? fun span => span.Covers i).map Span.style

/-- Later spans paint over the first. -/
theorem lastStyle?_cons (span : Span) (rest : List Span) (i : Nat) :
    lastStyle? (span :: rest) i
      = (lastStyle? rest i).or (if span.Covers i then some span.style else none) := by
  unfold lastStyle?
  rw [List.reverse_cons, List.find?_append, Option.map_or, List.find?_singleton]
  congr 1
  by_cases h : span.Covers i <;> simp [h]

/-- Some span gives the byte its class. -/
theorem exists_of_lastStyle? {spans : List Span} {i : Nat} {style : StyleClass}
    (h : lastStyle? spans i = some style) : ∃ span ∈ spans, span.Covers i ∧ span.style = style := by
  obtain ⟨span, hfind, hstyle⟩ := Option.map_eq_some_iff.mp h
  refine ⟨span, List.mem_reverse.mp (List.mem_of_find?_eq_some hfind), ?_, hstyle⟩
  simpa using List.find?_some hfind

/-- A byte that no span covers is given no class. -/
theorem lastStyle?_eq_none_iff {spans : List Span} {i : Nat} :
    lastStyle? spans i = none ↔ ∀ span ∈ spans, ¬ span.Covers i := by
  simp [lastStyle?]

namespace StyledBuffer

variable {classes : Array (Option StyleClass)}

/-- Bytes in a row get the class, as far as they are there. -/
theorem getElem?_paintFrom (style : StyleClass) (n i k : Nat)
    (classes : Array (Option StyleClass)) :
    (paintFrom style n i classes)[k]?
      = if i ≤ k ∧ k < i + n then classes[k]?.map fun _ => some style else classes[k]? := by
  induction n generalizing i classes with
  | zero =>
    rw [if_neg (by omega)]
    rfl
  | succ n ih =>
    rw [paintFrom, ih]
    -- The first byte is painted by itself, and the induction hypothesis is about those behind it.
    by_cases hfirst : i = k
    · subst hfirst
      rw [if_neg (by omega), if_pos (by omega), Array.getElem?_setIfInBounds_self]
      by_cases hi : i < classes.size
      · rw [if_pos hi, Array.getElem?_eq_getElem hi]
        rfl
      · rw [if_neg hi, Array.getElem?_eq_none (Nat.le_of_not_lt hi)]
        rfl
    · rw [Array.getElem?_setIfInBounds_ne hfirst]
      by_cases hrest : i + 1 ≤ k ∧ k < i + 1 + n
      · rw [if_pos hrest, if_pos (by omega)]
      · rw [if_neg hrest, if_neg (by omega)]

/-- **One span.** The bytes that it covers get its class, and all others keep theirs. -/
theorem getElem?_paint {span : Span} (hfits : span.Fits) (k : Nat) :
    (paint classes span)[k]?
      = if span.Covers k then classes[k]?.map fun _ => some span.style else classes[k]? := by
  rw [paint, getElem?_paintFrom, hfits.stop_eq]
  by_cases hk : k < classes.size
  · -- A byte of the text is not affected by how the span is cut off at its end.
    have hcut : min span.start (min (span.start + span.length) classes.size) ≤ k ∧
        k < min span.start (min (span.start + span.length) classes.size)
          + (min (span.start + span.length) classes.size
            - min span.start (min (span.start + span.length) classes.size)) ↔ span.Covers k := by
      unfold Span.Covers
      omega
    simp only [hcut]
  · rw [Array.getElem?_eq_none (Nat.le_of_not_lt hk)]
    simp

/-- **Any number of spans.** A byte gets the class of the last span that covers it. -/
theorem getElem?_foldl_paint {spans : List Span} (hfits : ∀ span ∈ spans, span.Fits) (k : Nat) :
    (spans.foldl paint classes)[k]? = classes[k]?.map fun old => (lastStyle? spans k).or old := by
  induction spans generalizing classes with
  | nil =>
    show classes[k]? = classes[k]?.map fun old => (none : Option StyleClass).or old
    simp
  | cons span rest ih =>
    obtain ⟨hspan, hrest⟩ := List.forall_mem_cons.mp hfits
    rw [List.foldl_cons, ih hrest, getElem?_paint hspan, lastStyle?_cons]
    -- What the first span has painted is the old class for the spans behind it.
    by_cases hcovers : span.Covers k
    · rw [if_pos hcovers, if_pos hcovers, Option.map_map]
      refine congrArg (Option.map · classes[k]?) (funext fun old => ?_)
      show (lastStyle? rest k).or (some span.style)
        = ((lastStyle? rest k).or (some span.style)).or old
      cases lastStyle? rest k <;> rfl
    · rw [if_neg hcovers, if_neg hcovers, Option.or_none]

/-- Batches that are applied one after the other amount to a single one, but for their number. -/
theorem foldl_applyBatch (b : StyledBuffer) (batches : List (List Span)) :
    batches.foldl applyBatch b
      = { b.applyBatch batches.flatten with batches := b.batches + batches.length } := by
  induction batches generalizing b with
  | nil => rfl
  | cons spans rest ih =>
    rw [List.foldl_cons, ih, List.flatten_cons, List.length_cons]
    simp only [applyBatch, List.foldl_append, Nat.add_assoc, Nat.add_comm 1]

end StyledBuffer

/-! ### There is only one list of runs -/

/-- A range of bytes of one class that cannot be made longer at either end. -/
structure IsLongestRun (classes : List (Option StyleClass)) (r : Run) : Prop where
  nonempty : r.start < r.stop
  class_eq : ∀ i, r.Covers i → classes[i]? = some (some r.style)
  class_before : ∀ i, i + 1 = r.start → classes[i]? ≠ some (some r.style)
  class_behind : classes[r.stop]? ≠ some (some r.style)

namespace AreRunsOf

variable {classes : List (Option StyleClass)} {runs runs' : List Run} {r : Run}

/-- **Runs by themselves.** The runs of some classes are the ranges of one class that cannot be made
    longer. -/
theorem mem_iff (h : AreRunsOf classes runs) : r ∈ runs ↔ IsLongestRun classes r := by
  constructor
  · intro hr
    exact ⟨h.nonempty r hr, fun i hi => (h.covers i r.style).mp ⟨r, hr, hi, rfl⟩,
      fun i hi => h.class_before hr hi, h.class_behind hr⟩
  · intro hlongest
    -- The run that the first byte belongs to has the same ends.
    obtain ⟨r', hr', ⟨hstart, hstop⟩, hstyle⟩ := (h.covers r.start r.style).mpr
      (hlongest.class_eq r.start ⟨Nat.le_refl _, hlongest.nonempty⟩)
    have hsame : ∀ i, r'.Covers i → classes[i]? = some (some r.style) := by
      intro i hi
      exact (h.covers i r.style).mp ⟨r', hr', hi, hstyle⟩
    have hstarts : r'.start = r.start := by
      by_contra hne
      exact hlongest.class_before (r.start - 1) (by omega) (hsame _ ⟨by omega, by omega⟩)
    have hstops : r'.stop = r.stop := by
      rcases Nat.lt_trichotomy r'.stop r.stop with hlt | heq | hgt
      · -- The other run would go on where it ends.
        have hnext := hlongest.class_eq r'.stop ⟨by omega, hlt⟩
        rw [← hstyle] at hnext
        exact absurd hnext (h.class_behind hr')
      · exact heq
      · have hpos := hlongest.nonempty
        exact absurd (hsame r.stop ⟨by omega, hgt⟩) hlongest.class_behind
    have heq : r' = r := by
      obtain ⟨start, stop, style⟩ := r
      obtain ⟨start', stop', style'⟩ := r'
      simp only at hstarts hstops hstyle
      rw [hstarts, hstops, hstyle]
    exact heq ▸ hr'

/-- Every run begins behind the one before. -/
theorem starts_sorted (h : AreRunsOf classes runs) :
    runs.Pairwise fun r r' => r.start < r'.start := by
  refine h.inOrder.imp_of_mem fun {r r'} hr _ hbefore => ?_
  exact Nat.lt_of_lt_of_le (h.nonempty r hr) hbefore.1

/-- **Uniqueness.** Two lists of runs have the same members, and are in the same order. -/
theorem unique (h : AreRunsOf classes runs) (h' : AreRunsOf classes runs') : runs = runs' := by
  have hnodup : ∀ {l : List Run}, (l.Pairwise fun r r' => r.start < r'.start) → l.Nodup := by
    intro l hl
    refine hl.imp fun hlt heq => ?_
    rw [heq] at hlt
    exact Nat.lt_irrefl _ hlt
  have hperm : runs.Perm runs' :=
    (List.perm_ext_iff_of_nodup (hnodup h.starts_sorted) (hnodup h'.starts_sorted)).mpr fun r =>
      h.mem_iff.trans h'.mem_iff.symm
  refine hperm.eq_of_pairwise (fun r r' _ _ hlt hgt => ?_) h.starts_sorted h'.starts_sorted
  exact absurd hgt (Nat.lt_asymm hlt)

end AreRunsOf

/-! ### Painting the runs -/

/-- The span of a run. -/
def Run.toSpan (r : Run) : Span := ⟨r.start, r.stop - r.start, r.style⟩

namespace StyledBuffer

variable {b : StyledBuffer}

/-- A byte has the class of the last span over it, or else the one it had. -/
theorem getElem?_applyBatch {spans : List Span} (hfits : ∀ span ∈ spans, span.Fits) (i : Nat) :
    (b.applyBatch spans).classes[i]? = b.classes[i]?.map fun old => (lastStyle? spans i).or old :=
  getElem?_foldl_paint hfits i

/-- A run covers the same bytes as its span. -/
theorem covers_toSpan {r : Run} (hr : r ∈ b.runs) (i : Nat) : r.toSpan.Covers i ↔ r.Covers i := by
  have hne := (areRunsOf_runsOf b.classes).nonempty r hr
  show r.start ≤ i ∧ i < r.start + (r.stop - r.start) ↔ r.start ≤ i ∧ i < r.stop
  omega

/-- A run that is painted as a span fits. -/
theorem fits_toSpan (hsize : b.classes.size < UInt64.size) {r : Run} (hr : r ∈ b.runs) :
    r.toSpan.Fits := by
  have hne := (areRunsOf_runsOf b.classes).nonempty r hr
  have hstop := (areRunsOf_runsOf b.classes).stop_le hr
  rw [Array.length_toList] at hstop
  show r.start + (r.stop - r.start) < UInt64.size
  omega

/-- The runs give each byte the class that it has. -/
theorem lastStyle?_runs (i : Nat) (hi : i < b.classes.size) :
    lastStyle? (b.runs.map Run.toSpan) i = b.classes[i] := by
  have hruns := areRunsOf_runsOf b.classes
  have hclass : b.classes.toList[i]? = some b.classes[i] := by
    rw [Array.getElem?_toList, Array.getElem?_eq_getElem hi]
  cases hlast : lastStyle? (b.runs.map Run.toSpan) i with
  | some style =>
    obtain ⟨span, hspan, hcovers, hstyle⟩ := exists_of_lastStyle? hlast
    obtain ⟨r, hr, rfl⟩ := List.mem_map.mp hspan
    have hsome := (hruns.covers i style).mp ⟨r, hr, (covers_toSpan hr i).mp hcovers, hstyle⟩
    rw [hclass] at hsome
    exact (Option.some.inj hsome).symm
  | none =>
    -- A byte with a class belongs to a run.
    cases hstyled : b.classes[i] with
    | none => rfl
    | some style =>
      rw [hstyled] at hclass
      obtain ⟨r, hr, hcovers, -⟩ := (hruns.covers i style).mpr hclass
      have hspan := lastStyle?_eq_none_iff.mp hlast r.toSpan (List.mem_map_of_mem hr)
      exact absurd ((covers_toSpan hr i).mpr hcovers) hspan

/-- **Painting again.** The runs, painted where nothing is styled, give the classes back. -/
theorem classes_repaint (hsize : b.classes.size < UInt64.size) :
    (b.resetStyling.applyBatch (b.runs.map Run.toSpan)).classes = b.classes := by
  have hfits : ∀ span ∈ b.runs.map Run.toSpan, span.Fits := by
    intro span hspan
    obtain ⟨r, hr, rfl⟩ := List.mem_map.mp hspan
    exact fits_toSpan hsize hr
  refine Array.ext_getElem? fun i => ?_
  rw [getElem?_applyBatch hfits]
  show (Array.replicate b.classes.size none)[i]?.map _ = b.classes[i]?
  by_cases hi : i < b.classes.size
  · rw [Array.getElem?_replicate, if_pos hi, Array.getElem?_eq_getElem hi, Option.map_some,
      lastStyle?_runs i hi, Option.or_none]
  · rw [Array.getElem?_replicate, if_neg hi, Array.getElem?_eq_none (Nat.le_of_not_lt hi)]
    rfl

end StyledBuffer

/-- **Painting.** In any buffer, and whatever spans are applied, each byte has the class of the last
    span that covers it, and its old class if none does; and several batches leave the same behind
    as all their spans in one. The runs of the buffer are the only list of ranges which are not
    empty, in order, disjoint, of different classes where two of them touch, and which cover the
    styled bytes with their classes and nothing else. So the runs, painted where nothing is styled,
    give the classes back. Offsets are 64-bit words. -/
theorem painting_is_exact (b : StyledBuffer) :
    (∀ spans : List Span, (∀ span ∈ spans, span.Fits) → ∀ i,
        (b.applyBatch spans).classes[i]? = b.classes[i]?.map fun old =>
          (lastStyle? spans i).or old) ∧
      (∀ batches : List (List Span), batches.foldl StyledBuffer.applyBatch b
        = { b.applyBatch batches.flatten with batches := b.batches + batches.length }) ∧
      (∀ runs, AreRunsOf b.classes.toList runs ↔ runs = b.runs) ∧
      (b.classes.size < UInt64.size →
        (b.resetStyling.applyBatch (b.runs.map Run.toSpan)).classes = b.classes) := by
  have hruns := areRunsOf_runsOf b.classes
  refine ⟨fun spans hfits => StyledBuffer.getElem?_applyBatch hfits, b.foldl_applyBatch,
    fun runs => ?_,
    StyledBuffer.classes_repaint⟩
  constructor
  · intro h
    exact h.unique hruns
  · rintro rfl
    exact hruns

/-- Spans out of order, one of them empty, two of them past the end, over an old class. The byte in
    the middle keeps what it had, and the two bytes behind it are one run although two spans painted
    them. -/
theorem painting_is_exact_overlapping :
    let b : StyledBuffer := { StyledBuffer.ofText "abcde" with
      classes := #[none, some .comment, some .comment, none, none] }
    let spans : List Span :=
      [⟨4, 9, .delimiter⟩, ⟨0, 2, .elementName⟩, ⟨1, 0, .comment⟩, ⟨3, 1, .delimiter⟩,
      ⟨7, 2, .comment⟩, ⟨0, 1, .attributeName⟩]
    let painted := b.applyBatch spans
    (∀ span ∈ spans, span.Fits) ∧
      painted.classes
        = #[some .attributeName, some .elementName, some .comment, some .delimiter,
          some .delimiter] ∧
      painted.runs = [⟨0, 1, .attributeName⟩, ⟨1, 2, .elementName⟩, ⟨2, 3, .comment⟩,
        ⟨3, 5, .delimiter⟩] ∧
      painted.classes.size < UInt64.size ∧
      (painted.resetStyling.applyBatch (painted.runs.map Run.toSpan)).classes
      = painted.classes := by
  intro b spans painted
  have hfits : ∀ span ∈ spans, span.Fits := by
    unfold Span.Fits
    decide
  have hclasses := (painting_is_exact b).1 spans hfits
  have hbytes : ∀ i < 5, b.classes[i]?.map (fun old => (lastStyle? spans i).or old)
      = #[some StyleClass.attributeName, some .elementName, some .comment, some .delimiter,
          some .delimiter][i]? := by
    decide
  -- Behind the last of the five bytes neither side has anything.
  have hpainted : painted.classes = _ := Array.ext_getElem? fun i => by
    rcases Nat.lt_or_ge i 5 with hi | hi
    · exact (hclasses i).trans (hbytes i hi)
    · rw [hclasses i, Array.getElem?_eq_none hi, Array.getElem?_eq_none hi]
      rfl
  have hsize : painted.classes.size < UInt64.size := by
    rw [hpainted]
    decide
  refine ⟨hfits, hpainted, ?_, hsize, (painting_is_exact painted).2.2.2 hsize⟩
  show runsOf painted.classes = _
  rw [hpainted]
  decide

end XmlHighlight
