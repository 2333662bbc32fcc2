import XmlHighlight.Proofs.StyledRuns
import XmlHighlight.Proofs.Terminal
import XmlHighlight.Proofs.WholeCharacters
import XmlHighlight.Render.Json

/-!
# Renderers — the same classes in both kinds of output

A terminal is sent characters, each behind the sequences for the class of its first byte. JSON lists
runs of bytes, and leaves out those that begin or end inside a character. If the bytes of each
character have one class there are no such runs, and both kinds of output show the same.

* `StyledBuffer.exists_run_iff` — the runs of a buffer by the classes of its bytes;
* `StyledBuffer.IsWhole.isBoundary_of_mem_runs`, `StyledBuffer.IsWhole.textRuns_eq` — no run is left
  out;
* `StyledBuffer.IsWhole.exists_textRun_char_iff` — the runs of JSON around a character;
* `renderers_agree` — whatever is done to a buffer.
-/

namespace XmlHighlight

namespace StyledBuffer

variable {b : StyledBuffer} {before after : List Char} {c : Char} {r : Run} {style : StyleClass}

/-! ### Runs -/

theorem classAt_eq_some_iff {i : Nat} : b.classAt i = some style ↔
    b.classes.toList[i]? = some (some style) := by
  rw [classAt_eq, Option.join_eq_some_iff]

/-- The bytes of a class are those of the runs of this class. -/
theorem exists_run_iff {i : Nat} :
    (∃ r ∈ b.runs, r.Covers i ∧ r.style = style) ↔ b.classAt i = some style := by
  rw [classAt_eq_some_iff]
  exact (areRunsOf_runsOf b.classes).covers i style

/-- A byte that a run covers has the class of the run. -/
theorem classAt_of_covers (hr : r ∈ b.runs) {i : Nat} (hi : r.Covers i) :
    b.classAt i = some r.style :=
  exists_run_iff.mp ⟨r, hr, hi, rfl⟩

/-- A run is as long as possible. -/
theorem classAt_stop_ne (hr : r ∈ b.runs) : b.classAt r.stop ≠ some r.style := by
  intro h
  exact (areRunsOf_runsOf b.classes).class_behind hr (classAt_eq_some_iff.mp h)

theorem lt_of_mem_runs (hr : r ∈ b.runs) : r.start < r.stop :=
  (areRunsOf_runsOf b.classes).nonempty r hr

/-! ### Whole characters -/

/-- The text between two boundaries is there. -/
theorem slice?_of_isBoundary {s : Source} {i j : Nat} (hi : s.isBoundary i = true)
    (hj : s.isBoundary j = true) (hij : i ≤ j) : s.slice? i j = some (s.slice i j) := by
  have hvalid : (s.utf8.extract i j).IsValidUTF8 := by
    rw [← Source.toByteArray_slice hi hj hij]
    exact (s.slice i j).isValidUTF8
  have hsome : s.slice? i j = some ⟨s.utf8.extract i j, hvalid⟩ := by
    have hguard : (decide (i ≤ j) && decide (j ≤ s.size)) = true := by
      simp [hij, Source.le_size_of_isBoundary hj]
    rw [Source.slice?, if_pos hguard, String.fromUTF8?, dif_pos hvalid]
    rfl
  rw [Source.slice, hsome, Option.getD_some]

namespace IsWhole

/-- A run begins and ends where the class changes, which is not inside a character. -/
theorem isBoundary_of_mem_runs (h : b.IsWhole) (hr : r ∈ b.runs) :
    b.source.isBoundary r.start = true ∧ b.source.isBoundary r.stop = true := by
  have hruns := areRunsOf_runsOf b.classes
  have hlt := lt_of_mem_runs hr
  constructor
  · cases hstart : r.start with
    | zero => exact b.source.isBoundary_zero
    | succ i =>
      cases hinside : b.source.isBoundary (i + 1) with
      | true => rfl
      | false =>
        -- The byte before would have the class of the first byte, and belong to the run.
        have hfirst := classAt_of_covers hr ⟨Nat.le_refl r.start, hlt⟩
        rw [hstart, h.classAt_succ hinside] at hfirst
        exact absurd (classAt_eq_some_iff.mp hfirst) (hruns.class_before hr hstart.symm)
  · cases hstop : r.stop with
    | zero => exact b.source.isBoundary_zero
    | succ i =>
      cases hinside : b.source.isBoundary (i + 1) with
      | true => rfl
      | false =>
        -- The byte behind the run would have the class of its last byte.
        have hlast := classAt_of_covers hr (i := i) ⟨by omega, by omega⟩
        rw [← h.classAt_succ hinside, ← hstop] at hlast
        exact absurd hlast (classAt_stop_ne hr)

/-- The text of a run is there, so the run is not left out. -/
theorem textRuns_eq (h : b.IsWhole) :
    b.textRuns = b.runs.map fun r => (r, b.source.slice r.start r.stop) := by
  have hslices : ∀ r ∈ b.runs,
    b.source.slice? r.start r.stop = some (b.source.slice r.start r.stop) := by
    intro r hr
    obtain ⟨hstart, hstop⟩ := h.isBoundary_of_mem_runs hr
    exact slice?_of_isBoundary hstart hstop (Nat.le_of_lt (lt_of_mem_runs hr))
  unfold textRuns
  generalize b.runs = runs at hslices
  induction runs with
  | nil => rfl
  | cons r rest ih =>
    rw [List.filterMap_cons, hslices r List.mem_cons_self, List.map_cons,
      ← ih fun x hx => hslices x (List.mem_cons_of_mem r hx)]
    rfl

/-- A character has a class if and only if it lies inside a run of this class. -/
theorem exists_run_char_iff (h : b.IsWhole) (htext : b.text.toList = before ++ c :: after) {i : Nat}
    (hi : (String.ofList before).utf8ByteSize = i) :
    (∃ r ∈ b.runs, r.style = style ∧ r.start ≤ i ∧ i + c.utf8Size ≤ r.stop) ↔
      b.classAt i = some style := by
  constructor
  · rintro ⟨r, hr, rfl, hstart, hstop⟩
    have hpos := c.utf8Size_pos
    exact classAt_of_covers hr ⟨hstart, by omega⟩
  · intro hclass
    obtain ⟨r, hr, ⟨hstart, hstop⟩, rfl⟩ := exists_run_iff.mpr hclass
    refine ⟨r, hr, rfl, hstart, ?_⟩
    rcases Nat.lt_or_ge r.stop (i + c.utf8Size) with hinside | hle
    · -- A run that ends inside a character could be longer.
      obtain ⟨k, hk⟩ := Nat.exists_eq_add_of_lt hstop
      have hsame := h.classAt_char htext (show k + 1 < c.utf8Size by omega)
      rw [hi, ← Nat.add_assoc] at hsame
      exact absurd ((congrArg b.classAt hk).trans (hsame.trans hclass)) (classAt_stop_ne hr)
    · exact hle

/-- It has this class if and only if it lies inside a run that JSON lists. -/
theorem exists_textRun_char_iff (h : b.IsWhole) (htext : b.text.toList = before ++ c :: after)
    {i : Nat} (hi : (String.ofList before).utf8ByteSize = i) :
    (∃ x ∈ b.textRuns, x.1.style = style ∧ x.1.start ≤ i ∧ i + c.utf8Size ≤ x.1.stop) ↔
      b.classAt i = some style := by
  rw [h.textRuns_eq, ← h.exists_run_char_iff htext hi]
  constructor
  · rintro ⟨x, hx, haround⟩
    obtain ⟨r, hr, rfl⟩ := List.mem_map.mp hx
    exact ⟨r, hr, haround⟩
  · rintro ⟨r, hr, haround⟩
    exact ⟨_, List.mem_map_of_mem hr, haround⟩

end IsWhole

end StyledBuffer

/-- **Renderers.** Whatever is done to a buffer, which is new or has been made from a text, if no
    span that is painted begins or ends inside a character: the bytes of each character have one
    class. So every run begins and ends between characters, and JSON lists all of them, with the
    text that each covers. The output for a terminal is made of the characters of the text, with
    sequences before each of them and behind the last one, which leave nothing behind. A character
    lies inside a run of a class in JSON if and only if this is the class of its first byte, and the
    sequences up to the character lead to the color that the theme has for this class, or to none if
    it has none. So a color that the theme has for one class only tells that a character lies inside
    a run of this class. If there is no escape character in the text, it is in this color that a
    terminal shows the character when it is sent the whole output. -/
theorem renderers_agree (first : Option String) (ops : List BufferOp)
    (hops : (first.elim .empty .ofText : StyledBuffer).NoneSplits ops) :
    let b := (first.elim .empty .ofText : StyledBuffer).performAll ops
    (∀ before c after, b.text.toList = before ++ c :: after → ∀ k < c.utf8Size,
        b.classAt ((String.ofList before).utf8ByteSize + k)
          = b.classAt (String.ofList before).utf8ByteSize) ∧
      (∀ r ∈ b.runs, b.source.isBoundary r.start = true ∧ b.source.isBoundary r.stop = true) ∧
      (b.textRuns = b.runs.map fun r => (r, b.source.slice r.start r.stop)) ∧
      (∀ r ∈ b.runs, (b.source.slice r.start r.stop).toByteArray
        = b.text.toByteArray.extract r.start r.stop) ∧
      ∀ theme : Theme, ∃ (pieces : List (List Char × Char)) (last : List Char),
        (b.toAnsi theme).toList = pieces.flatMap (fun p => p.1 ++ [p.2]) ++ last ∧
          pieces.map Prod.snd = b.text.toList ∧
          Terminal.blank.feed (pieces.flatMap Prod.fst ++ last) = .blank ∧
          ∀ before c after, b.text.toList = before ++ c :: after →
            let i := (String.ofList before).utf8ByteSize
            let t := Terminal.blank.feed ((pieces.take (before.length + 1)).flatMap Prod.fst)
            let InRun := fun style =>
              ∃ x ∈ b.textRuns, x.1.style = style ∧ x.1.start ≤ i ∧ i + c.utf8Size ≤ x.1.stop
            (∀ style, InRun style ↔ b.classAt i = some style) ∧
              t = ⟨[], theme.ink (b.classAt i), .outside⟩ ∧
              (∀ style, (∀ other, theme.ink other = theme.ink (some style) → other = some style) →
                (InRun style ↔ t.ink = theme.ink (some style))) ∧
              (escape ∉ b.text.toList →
                (Terminal.blank.feed (b.toAnsi theme).toList).shown[before.length]?
                  = some (c, t.ink)) := by
  intro b
  have hfirst : (first.elim .empty .ofText : StyledBuffer).IsWhole := by
    cases first with
    | none => exact ⟨[], rfl, rfl⟩
    | some text => exact StyledBuffer.isWhole_setText _ text
  have hwhole : b.IsWhole := hfirst.performAll hops
  refine ⟨fun _ _ _ htext _ hk => hwhole.classAt_char htext hk,
    fun r hr => hwhole.isBoundary_of_mem_runs hr, hwhole.textRuns_eq, ?_, ?_⟩
  · intro r hr
    obtain ⟨hstart, hstop⟩ := hwhole.isBoundary_of_mem_runs hr
    exact Source.toByteArray_slice hstart hstop (Nat.le_of_lt (StyledBuffer.lt_of_mem_runs hr))
  · intro theme
    refine ⟨Ansi.pieces theme b.classAt b.text.toList 0 none,
      Ansi.ending (Ansi.lastClass b.classAt b.text.toList 0 none), ?_, ?_, ?_, ?_⟩
    · rw [b.toList_toAnsi, Ansi.output_eq_pieces]
    · exact Ansi.map_snd_pieces theme b.classAt _ 0 none
    · exact Terminal.feed_pieces_ending theme b.classAt _ 0 none
    · intro before c after htext i t InRun
      have hclass : ∀ style, InRun style ↔ b.classAt i = some style := fun _ =>
        hwhole.exists_textRun_char_iff htext rfl
      have hterminal : t = ⟨[], theme.ink (b.classAt i), .outside⟩ := by
        have hsequences := Terminal.feed_pieces theme b.classAt before c after 0 none
        rwa [← htext, Nat.zero_add] at hsequences
      refine ⟨hclass, hterminal, fun style hdistinct => ?_, fun hplain => ?_⟩
      · rw [hclass, hterminal]
        constructor
        · intro h
          rw [h]
        · exact hdistinct _
      · rw [hterminal]
        exact b.shown_toAnsi theme hplain htext

/-- Two-byte letters in a tag: spans that reach past the end, an insertion inside a letter, which
    counts as its beginning, a replacement of what differs only, and a span behind the first letter.
    The second letter lies inside a run of names, and a terminal shows it in the color for names. -/
theorem renderers_agree_after_edits :
    let ops : List BufferOp :=
      [.applyBatch [⟨0, 1, .delimiter⟩, ⟨1, 2, .elementName⟩, ⟨3, 9, .delimiter⟩], .insert 2 "ü",
        .replaceText "<üé/>", .applyBatch [⟨1, 2, .comment⟩], .remove 6 5]
    let b := (StyledBuffer.ofText "<é>").performAll ops
    let theme : Theme :=
      ⟨"Tags", [(.delimiter, ⟨0, 0, 255, 255⟩), (.elementName, ⟨139, 0, 0, 255⟩)]⟩
    (StyledBuffer.ofText "<é>").NoneSplits ops ∧ b.text = "<üé/>" ∧
      b.runs = [⟨0, 1, .delimiter⟩, ⟨1, 3, .comment⟩, ⟨3, 5, .elementName⟩, ⟨6, 7, .delimiter⟩] ∧
      b.textRuns = (b.runs.map fun r => (r, b.source.slice r.start r.stop)) ∧
      b.toAnsi theme = "\x1b[38;2;0;0;255m<\x1b[0mü\x1b[0m\x1b[38;2;139;0;0mé\x1b[0m/"
        ++ "\x1b[38;2;0;0;255m>\x1b[0m" ∧
      (∃ x ∈ b.textRuns, x.1.style = .elementName ∧ x.1.start ≤ 3 ∧ 3 + 'é'.utf8Size ≤ x.1.stop) ∧
      (Terminal.blank.feed (b.toAnsi theme).toList).shown[2]? = some ('é', some ⟨139, 0, 0⟩) := by
  intro ops b theme
  have hops : (StyledBuffer.ofText "<é>").NoneSplits ops := by decide +kernel
  have htext : b.text.toList = ['<', 'ü'] ++ 'é' :: ['/', '>'] := by decide +kernel
  have hname : b.classAt (String.ofList ['<', 'ü']).utf8ByteSize = some .elementName := by
    decide +kernel
  have hplain : escape ∉ b.text.toList := by decide +kernel
  have hink : theme.ink (some .elementName) = some ⟨139, 0, 0⟩ := by decide +kernel
  obtain ⟨-, -, htexts, -, hterminals⟩ := renderers_agree (some "<é>") ops hops
  obtain ⟨pieces, last, -, -, -, hchars⟩ := hterminals theme
  obtain ⟨hrun, hlast, -, hshown⟩ := hchars _ _ _ htext
  refine ⟨hops, by decide +kernel, by decide +kernel, htexts, by decide +kernel,
    (hrun _).mpr hname, ?_⟩
  rw [← hink, ← hname]
  exact (hshown hplain).trans (congrArg (fun t => some ('é', t.ink)) hlast)

end XmlHighlight
