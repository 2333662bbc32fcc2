import XmlHighlight.Proofs.Bytes

/-!
# Stretches of characters

A name is a run of characters, and what may stand next to one is known by its bytes. A stretch of
characters lies between boundaries, it can be cut out of the text, and its ASCII bytes are
characters of it.

* `Source.utf8ByteSize_slice`, `Source.matchesAt_slice` — what is cut out of a text between
  boundaries;
* `Source.AllChars` — every character of a stretch satisfies a predicate;
* `Source.allChars_skipChars`, `Source.skipChars_stops` — what a run of characters is, and where it
  ends;
* `Source.skipChars_of_allChars` — a run that goes through characters known before.
-/

namespace XmlHighlight
namespace Source

variable {s : Source} {i j k stop : Nat} {c : Char} {p r : Char → Bool}

/-! ### Slices -/

/-- The text between two boundaries is there. -/
theorem toByteArray_slice (hi : s.isBoundary i = true) (hj : s.isBoundary j = true) (hij : i ≤ j) :
    (s.slice i j).toByteArray = s.utf8.extract i j := by
  have hle := le_size_of_isBoundary hj
  have hvalid : (s.utf8.extract i j).IsValidUTF8 := by
    rw [s.utf8_eq]
    refine (String.Pos.Raw.isValidUTF8_extract_iff ⟨i⟩ ⟨j⟩ hij ?_).mpr (.inr ?_)
    · rw [String.Pos.Raw.le_iff, String.byteIdx_rawEndPos, ← size_eq]
      exact hle
    · exact ⟨isBoundary_iff.mp hi, isBoundary_iff.mp hj⟩
  have hguard : (decide (i ≤ j) && decide (j ≤ s.size)) = true := by simp [hij, hle]
  rw [slice, slice?, if_pos hguard, String.fromUTF8?, dif_pos hvalid]
  rfl

/-- A slice between boundaries has the size that lies between them. -/
theorem utf8ByteSize_slice (hi : s.isBoundary i = true) (hj : s.isBoundary j = true) (hij : i ≤ j) :
    (s.slice i j).utf8ByteSize = j - i := by
  have hle : j ≤ s.utf8.size := le_size_of_isBoundary hj
  rw [← String.size_toByteArray, toByteArray_slice hi hj hij, ByteArray.size_extract,
    Nat.min_eq_left hle]

/-- What is cut out of a text is not longer than the stretch it is cut out of. -/
theorem utf8ByteSize_slice_le (s : Source) (i j : Nat) : (s.slice i j).utf8ByteSize ≤ j - i := by
  unfold slice slice?
  split
  · unfold String.fromUTF8?
    split
    · show (s.utf8.extract i j).size ≤ j - i
      rw [ByteArray.size_extract]
      omega
    · exact Nat.zero_le _
  · exact Nat.zero_le _

/-- Bytes stand at an offset if each of them is found there. -/
theorem matchesAt_of_byte? {pattern : List UInt8} (i : Nat)
    (h : ∀ k b, pattern[k]? = some b → s.byte? (i + k) = some b) :
    s.matchesAt pattern i = true := by
  induction pattern generalizing i with
  | nil => rfl
  | cons b rest ih =>
    rw [matchesAt, Bool.and_eq_true]
    refine ⟨by rw [← Nat.add_zero i, h 0 b rfl, beq_self_eq_true], ih (i + 1) ?_⟩
    intro k b' hk
    rw [Nat.add_assoc, Nat.add_comm 1 k]
    exact h (k + 1) b' hk

/-- What is cut out of a text stands where it was cut out. -/
theorem matchesAt_slice (hi : s.isBoundary i = true) (hj : s.isBoundary j = true) (hij : i ≤ j) :
    s.matchesAt (s.slice i j).toByteArray.toList i = true := by
  refine matchesAt_of_byte? i ?_
  intro k b hk
  rw [toByteArray_slice hi hj hij, byteArray_toList, List.getElem?_eq_some_iff] at hk
  obtain ⟨hlt, rfl⟩ := hk
  have hlt' : k < (s.utf8.extract i j).size := hlt
  have hsize : i + k < s.utf8.size := by
    rw [ByteArray.size_extract] at hlt'
    omega
  have hget : (s.utf8.extract i j)[k] = s.utf8[i + k] := ByteArray.getElem_extract hlt'
  rw [byte?, dif_pos hsize, ← hget]
  rfl

/-! ### Characters -/

/-- The characters from offset `i` up to offset `j` satisfy `p`. -/
inductive AllChars (s : Source) (p : Char → Bool) : Nat → Nat → Prop where
  | nil (i : Nat) : AllChars s p i i
  | cons {i j : Nat} {c : Char} (char : s.utf8.utf8DecodeChar? i = some c) (holds : p c = true)
      (rest : AllChars s p (i + c.utf8Size) j) : AllChars s p i j

/-- Characters are read forward. -/
theorem AllChars.le (h : s.AllChars p i j) : i ≤ j := by
  induction h with
  | nil i => exact Nat.le_refl i
  | cons _ _ _ ih => exact Nat.le_trans (Nat.le_add_right _ _) ih

/-- A stretch that is not empty begins at a boundary. -/
theorem AllChars.isBoundary_left (h : s.AllChars p i j) (hij : i < j) : s.isBoundary i = true := by
  cases h with
  | nil => exact absurd hij (Nat.lt_irrefl i)
  | cons char _ _ => exact isBoundary_of_decode char

/-- Characters end at a boundary if they begin at one. -/
theorem AllChars.isBoundary_right (h : s.AllChars p i j) (hi : s.isBoundary i = true) :
    s.isBoundary j = true := by
  induction h with
  | nil => exact hi
  | cons char _ _ ih => exact ih (isBoundary_add_utf8Size char)

theorem AllChars.mono (h : s.AllChars p i j) (hpr : ∀ c, p c = true → r c = true) :
    s.AllChars r i j := by
  induction h with
  | nil i => exact .nil i
  | cons char holds _ ih => exact .cons char (hpr _ holds) ih

theorem AllChars.append (h : s.AllChars p i j) (h' : s.AllChars p j k) : s.AllChars p i k := by
  induction h with
  | nil => exact h'
  | cons char holds _ ih => exact .cons char holds (ih h')

/-- The ASCII bytes of a stretch are characters of it. So its bytes satisfy what only an ASCII byte
    that is none of its characters could violate. -/
theorem AllChars.allBytes {q : UInt8 → Bool} (h : s.AllChars p i j)
    (hq : ∀ b, q b = false → b < 128 ∧ p (Char.ofUInt8 b) = false) : s.AllBytes q i j := by
  induction h with
  | nil => exact allBytes_self
  | @cons i j c char holds _ ih =>
    -- A byte that fails is an ASCII character, so it is the whole of the character it belongs to.
    refine AllBytes.append (j := i + c.utf8Size) ?_ ih
    intro k hik hk
    obtain ⟨n, rfl⟩ := Nat.exists_eq_add_of_le hik
    have hn : n < (String.utf8EncodeChar c).length := by simpa using (show n < c.utf8Size by omega)
    refine ⟨(String.utf8EncodeChar c)[n], ?_, ?_⟩
    · rw [byte?_of_decode char (by omega), List.getElem?_eq_getElem hn]
    · cases hb : q (String.utf8EncodeChar c)[n] with
      | true => rfl
      | false =>
        obtain ⟨hascii, hp⟩ := hq _ hb
        rw [← (eq_of_mem_utf8EncodeChar (List.getElem_mem hn) hascii).2, holds] at hp
        exact absurd hp (by simp)

/-! ### Runs of characters -/

/-- There is no boundary inside a character. -/
theorem add_utf8Size_le (h : s.utf8.utf8DecodeChar? i = some c) (hij : i < j)
    (hj : s.isBoundary j = true) : i + c.utf8Size ≤ j := by
  rcases isBoundary_iff_decode.mp hj with rfl | ⟨c', hc'⟩
  · exact ByteArray.le_size_of_utf8DecodeChar?_eq_some h
  · by_cases hlt : j < i + c.utf8Size
    · -- The byte at `j` would both begin a character and go on with one.
      obtain ⟨n, rfl⟩ := Nat.exists_eq_add_of_lt hij
      have hn : n + 1 < (String.utf8EncodeChar c).length := by
        simpa using (show n + 1 < c.utf8Size by omega)
      have h0 : 0 < (String.utf8EncodeChar c').length := by simpa using c'.utf8Size_pos
      have hfirst := byte?_of_decode hc' c'.utf8Size_pos
      rw [Nat.add_zero, Nat.add_assoc, byte?_of_decode h (by omega), List.getElem?_eq_getElem hn,
        List.getElem?_eq_getElem h0, Option.some.injEq] at hfirst
      have hzero : (String.utf8EncodeChar c')[0].IsUTF8FirstByte :=
        UInt8.isUTF8FirstByte_getElem_utf8EncodeChar.mpr rfl
      rw [← hfirst] at hzero
      exact absurd (UInt8.isUTF8FirstByte_getElem_utf8EncodeChar.mp hzero) (Nat.succ_ne_zero n)
    · omega

theorem char?_eq_some_iff : s.char? stop i = some c ↔ i < stop ∧
    s.utf8.utf8DecodeChar? i = some c := by
  unfold char?
  split
  · next h => simp [h]
  · next h => simp [h]

/-- A run of characters consists of characters that belong to it. -/
theorem allChars_skipChars (p : Char → Bool) (stop i : Nat) :
    s.AllChars p i (s.skipChars (fun _ => p) stop i) := by
  fun_induction skipChars s (fun _ => p) stop i with
  | case1 i hi c hc hp ih => exact .cons (char?_eq_some_iff.mp hc).2 hp ih
  | case2 | case3 | case4 => exact .nil _

/-- Skipping characters up to a boundary does not go past it. -/
theorem skipChars_le (p : Nat → Char → Bool) (hstop : s.isBoundary stop = true) (h : i ≤ stop) :
    s.skipChars p stop i ≤ stop := by
  fun_induction skipChars s p stop i with
  | case1 i hi c hc hp ih => exact ih (add_utf8Size_le (char?_eq_some_iff.mp hc).2 hi hstop)
  | case2 | case3 | case4 => exact h

/-- A run of characters ends at a character that does not belong to it, if there is one left. -/
theorem skipChars_stops (h : s.char? stop (s.skipChars (fun _ => p) stop i) = some c) :
    p c = false := by
  fun_induction skipChars s (fun _ => p) stop i with
  | case1 i hi c' hc hp ih => exact ih h
  | case2 i hi c' hc hp =>
    rw [hc, Option.some.injEq] at h
    rw [← h]
    simpa using hp
  | case3 i hi hc =>
    rw [hc] at h
    exact absurd h (by simp)
  | case4 i hi => exact absurd (char?_eq_some_iff.mp h).1 hi

/-- A run that begins where a stretch of characters does ends with the stretch if the next character
    does not belong to the run, or else at an earlier character that does not belong to it. -/
theorem skipChars_of_allChars (h : s.AllChars p i j) (hstop : j ≤ stop)
    (hj : ∀ c, s.char? stop j = some c → r c = false) :
    s.skipChars (fun _ => r) stop i = j ∨
      ∃ e c, s.skipChars (fun _ => r) stop i = e ∧ i ≤ e ∧ e + c.utf8Size ≤ j ∧
        s.utf8.utf8DecodeChar? e = some c ∧ p c = true ∧ r c = false := by
  -- By induction on the stretch, which the run follows as long as its characters satisfy `r`.
  induction h with
  | nil i =>
    left
    rw [skipChars]
    split
    · split
      · next c hc => rw [if_neg (by simp [hj c hc])]
      · rfl
    · rfl
  | @cons i j c char holds rest ih =>
    have hlt : i < stop := by
      have := rest.le
      have := c.utf8Size_pos
      omega
    have hchar : s.char? stop i = some c := char?_eq_some_iff.mpr ⟨hlt, char⟩
    rw [skipChars, if_pos hlt, hchar]
    by_cases hr : r c = true
    · simp only [hr, if_true]
      rcases ih hstop hj with heq | ⟨e, c', heq, hle, hrest⟩
      · exact .inl heq
      · exact .inr ⟨e, c', heq, by omega, hrest⟩
    · simp only [hr]
      exact .inr ⟨i, c, rfl, Nat.le_refl i, rest.le, char, holds, by simpa using hr⟩

end Source
end XmlHighlight
