import XmlHighlight.Proofs.Layout
import XmlHighlight.Xml.AttributeValue

/-!
# Sizes of attribute values

The value of an attribute is never longer than its text, unless an entity is replaced in it: a
reference to a character takes more bytes than the character, and white space of any kind becomes a
single space.

* `readReference?_size` — a reference takes more bytes than its character;
* `normalizeValue_size` — a value is not longer than its text.
-/

namespace XmlHighlight

open Xml

variable {s : Source} {stop i j : Nat}

/-! ### References -/

/-- The entities that every document has are ASCII characters. -/
theorem utf8Size_builtinEntity {name : String} {c : Char} (h : builtinEntity? name = some c) :
    c.utf8Size = 1 := by
  unfold builtinEntity? at h
  split at h
  all_goals first | (cases h; rfl) | cases h

/-- A reference by number takes at least four bytes. -/
theorem number_size {isDigit : UInt8 → Bool} {base k : Nat} {c : Char} {hk : i < k} {hlt : i < j}
    (h : readReference?.number s stop i isDigit base k hk = some ⟨.character c, j, hlt⟩)
    (hle : i + 2 ≤ k) : i + c.utf8Size ≤ j ∧ j ≤ stop := by
  unfold readReference?.number at h
  dsimp only at h
  split at h
  · next hguard =>
    rw [Bool.and_eq_true, decide_eq_true_iff, beq_iff_eq] at hguard
    obtain ⟨hdigits, hsemicolon⟩ := hguard
    obtain ⟨hstop, -⟩ := byteIn?_eq_some_iff.mp hsemicolon
    obtain ⟨c', -, h⟩ := Option.map_eq_some_iff.mp h
    cases h
    have := c.utf8Size_le_four
    omega
  · cases h

/-- A reference takes at least as many bytes as its character. -/
theorem readReference?_size {c : Char} {hlt : i < j}
    (h : readReference? s stop i = some ⟨.character c, j, hlt⟩) :
    i + c.utf8Size ≤ j ∧ j ≤ stop := by
  unfold readReference? at h
  split at h
  · split at h
    · exact number_size h (by omega)
    · exact number_size h (by omega)
  · split at h
    · cases h
    · next name k hname _ =>
      split at h
      · next hsemicolon =>
        -- The name of a built-in entity is longer than the one byte that it stands for.
        obtain ⟨hstop, -⟩ := byteIn?_eq_some_iff.mp (beq_iff_eq.mp hsemicolon)
        rw [Option.some.injEq] at h
        cases hbuiltin : builtinEntity? name with
        | none =>
          rw [hbuiltin] at h
          cases h
        | some c' =>
          rw [hbuiltin] at h
          cases h
          rw [utf8Size_builtinEntity hbuiltin]
          omega
      · cases h

/-! ### Values -/

/-- White space as a space is not longer. -/
theorem utf8Size_spaced (c : Char) : (spaced c).utf8Size ≤ c.utf8Size := by
  unfold spaced
  split
  · exact c.utf8Size_pos
  · exact Nat.le_refl _

theorem utf8ByteSize_push (v : PartialValue) (c : Char) :
    (v.push c).text.utf8ByteSize = v.text.utf8ByteSize + c.utf8Size :=
  String.utf8ByteSize_push

/-- Reading on from offset `i` adds no more bytes than there are up to `stop`, if no entity is
    declared. -/
theorem normalizeRun_size (hstop : s.isBoundary stop = true) {inside : Bool}
    {expand : Nat → Extent → PartialValue → Except SyntaxError PartialValue} {v v' : PartialValue}
    (h : normalizeRun s #[] inside expand stop i v = .ok v') :
    v'.text.utf8ByteSize ≤ v.text.utf8ByteSize + (stop - i) := by
  fun_induction normalizeRun s #[] inside expand stop i v with
  | case1 | case11 =>
    cases h
    exact Nat.le_add_right _ _
  | case2 | case3 | case6 | case8 => cases h
  -- A reference to a character is longer than the character.
  | case4 i v hi hchar c j hlt href hinside hc ih =>
    have hsize := readReference?_size href
    have hspaced := utf8Size_spaced c
    have hrest := ih h
    rw [utf8ByteSize_push] at hrest
    omega
  | case5 i v hi hchar c j hlt href hinside ih =>
    have hsize := readReference?_size href
    have hrest := ih h
    rw [utf8ByteSize_push] at hrest
    omega
  -- There is no entity that a reference could be to.
  | case7 i v hi hchar name j hlt href entity hentity => simp [findEntity?] at hentity
  | case9 i v hi c hamp hchar hbreak ih =>
    have hrest := ih h
    omega
  -- Any other character comes into the value as it is, or as a space.
  | case10 i v hi c hamp hchar hbreak hpos ih =>
    have hsize := Source.add_utf8Size_le (Source.char?_eq_some_iff.mp hchar).2 hi hstop
    have hspaced := utf8Size_spaced c
    have hrest := ih h
    rw [utf8ByteSize_push] at hrest
    omega

/-- **Size.** A value is not longer than its text if no entity is declared. -/
theorem normalizeValue_size {room : Nat} {extent : Extent} (hstop : s.isBoundary extent.stop = true)
    {v v' : PartialValue} (h : normalizeValue s #[] room extent v = .ok v') :
    v'.text.utf8ByteSize ≤ v.text.utf8ByteSize + (extent.stop - extent.start) := by
  cases room with
  | zero => exact normalizeRun_size hstop h
  | succ room => exact normalizeRun_size hstop h

end XmlHighlight
