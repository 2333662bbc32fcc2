import XmlHighlight.Source

/-!
# Bytes and characters of a source

The markup of a document is made of ASCII bytes, and a byte below 128 is always a character by
itself. So a search for such a byte cannot end inside a character, and whatever surrounds one lies
between characters.

* `bytes_eq_flatMap`, `eq_of_mem_utf8EncodeChar` — the bytes of a text, and the ASCII bytes among
  them;
* `Source.isBoundary_of_ascii`, `Source.isBoundary_succ` — an ASCII byte has a boundary on either
  side;
* `Source.AllBytes` — every byte of a stretch satisfies a predicate;
* `Source.skipWhile_eq`, `Source.allBytes_skipWhile` — what a run of bytes is;
* `Source.find?_eq` — what a search for an ASCII character finds.
-/

namespace XmlHighlight

/-! ### The bytes of a text -/

/-- The loop that turns bytes into a list puts the rest of them behind what it has found. -/
theorem byteArray_toList_loop (bytes : ByteArray) (i : Nat) (found : List UInt8) :
    ByteArray.toList.loop bytes i found = found.reverse ++ bytes.data.toList.drop i := by
  fun_induction ByteArray.toList.loop bytes i found with
  | case1 i found h ih =>
    have hi : i < bytes.data.toList.length := by simpa using h
    rw [ih, List.drop_eq_getElem_cons hi]
    simp [ByteArray.get!, getElem!_pos bytes.data i (by simpa using hi)]
  | case2 i found h =>
    rw [List.drop_of_length_le (by simpa using h)]
    simp

/-- A byte array as a list is the list of its data. -/
theorem byteArray_toList (bytes : ByteArray) : bytes.toList = bytes.data.toList := by
  simp [ByteArray.toList, byteArray_toList_loop]

/-- The bytes of a text are those of its characters. -/
theorem bytes_eq_flatMap (text : String) :
    text.toByteArray.toList = text.toList.flatMap String.utf8EncodeChar := by
  rw [byteArray_toList]
  conv => lhs; rw [← String.ofList_toList (s := text), String.toByteArray_ofList]
  simp [List.utf8Encode]

/-- A text has as many bytes as its size says. -/
theorem length_bytes (text : String) : text.toByteArray.toList.length = text.utf8ByteSize := by
  rw [byteArray_toList]
  simp [String.size_toByteArray]

/-- A byte with its highest bit set is not an ASCII byte. -/
theorem not_lt_of_or {x m : UInt8} (hm : 128 ≤ m) : ¬ (x ||| m) < 128 := by
  rw [UInt8.lt_iff_toNat_lt, UInt8.toNat_or]
  have h := Nat.right_le_or (n := x.toNat) (m := m.toNat)
  have hm' : 128 ≤ m.toNat := by simpa [UInt8.le_iff_toNat_le] using hm
  simp only [UInt8.reduceToNat]
  omega

/-- An ASCII byte of a character is the whole character. -/
theorem eq_of_mem_utf8EncodeChar {c : Char} {b : UInt8} (h : b ∈ String.utf8EncodeChar c)
    (ha : b < 128) : c.utf8Size = 1 ∧ c = Char.ofUInt8 b := by
  rcases c.utf8Size_eq with h1 | h2 | h3 | h4
  · rw [String.utf8EncodeChar_eq_singleton h1, List.mem_singleton] at h
    have hc := UInt32.le_iff_toNat_le.mp (Char.utf8Size_eq_one_iff.mp h1)
    refine ⟨h1, Char.ext (UInt32.toNat_inj.mp ?_)⟩
    show c.val.toNat = b.toUInt32.toNat
    rw [h]
    simp only [UInt32.reduceToNat, UInt8.toNat_toUInt32, UInt32.toNat_toUInt8] at hc ⊢
    omega
  · -- All bytes of a longer encoding have their highest bit set.
    rw [String.utf8EncodeChar_eq_cons_cons h2] at h
    simp only [List.mem_cons, List.not_mem_nil, or_false] at h
    rcases h with rfl | rfl <;> exact absurd ha (not_lt_of_or (by decide))
  · rw [String.utf8EncodeChar_eq_cons_cons_cons h3] at h
    simp only [List.mem_cons, List.not_mem_nil, or_false] at h
    rcases h with rfl | rfl | rfl <;> exact absurd ha (not_lt_of_or (by decide))
  · rw [String.utf8EncodeChar_eq_cons_cons_cons_cons h4] at h
    simp only [List.mem_cons, List.not_mem_nil, or_false] at h
    rcases h with rfl | rfl | rfl | rfl <;> exact absurd ha (not_lt_of_or (by decide))

/-- A character of one byte is that byte. -/
theorem bytes_singleton {c : Char} (h : c.utf8Size = 1) :
    (String.singleton c).toByteArray.toList = [c.toUInt8] := by
  rw [bytes_eq_flatMap, String.toList_singleton, List.flatMap_singleton,
    String.utf8EncodeChar_eq_singleton h]
  rfl

/-- An ASCII character that is not in a text is not among its bytes. -/
theorem not_mem_bytes {text : String} {b : UInt8} (ha : b < 128)
    (h : Char.ofUInt8 b ∉ text.toList) :
    b ∉ text.toByteArray.toList := by
  rw [bytes_eq_flatMap, List.mem_flatMap]
  rintro ⟨c, hc, hb⟩
  exact h ((eq_of_mem_utf8EncodeChar hb ha).2 ▸ hc)

/-- An ASCII byte begins a character. -/
theorem isUTF8FirstByte_of_ascii {b : UInt8} (ha : b < 128) : b.IsUTF8FirstByte := by
  have hlow : ∀ n < 128, n &&& 128 = 0 := by decide
  refine .inl (UInt8.toNat_inj.mp ?_)
  rw [UInt8.toNat_and]
  exact hlow _ (by simpa [UInt8.lt_iff_toNat_lt] using ha)

namespace Source

variable {s : Source} {i j k stop : Nat} {b : UInt8} {c : Char}

theorem byte?_eq_some_iff : s.byte? i = some b ↔ ∃ h : i < s.utf8.size, s.utf8[i] = b := by
  unfold byte?
  split
  · next h => simp [h]
  · next h => simp [h]

/-- A byte that stands in the text stands before its end. -/
theorem lt_size_of_byte? (h : s.byte? i = some b) : i < s.size :=
  (byte?_eq_some_iff.mp h).1

/-! ### Boundaries -/

/-- The boundaries are the positions that are valid in the text. -/
theorem isBoundary_iff : s.isBoundary i = true ↔ (⟨i⟩ : String.Pos.Raw).IsValid s.text :=
  String.Pos.Raw.isValid_eq_true_iff

theorem size_eq : s.size = s.text.utf8ByteSize := by
  rw [size, s.utf8_eq, String.size_toByteArray]

/-- No boundary lies behind the end of the text. -/
theorem le_size_of_isBoundary (h : s.isBoundary i) : i ≤ s.size := by
  rw [size_eq]
  exact (isBoundary_iff.mp h).le_utf8ByteSize

@[simp] theorem isBoundary_size : s.isBoundary s.size = true := by
  rw [size_eq]
  exact isBoundary_iff.mpr String.Pos.Raw.isValid_rawEndPos

/-- A character begins at every boundary but the last. -/
theorem isBoundary_iff_decode :
    s.isBoundary i = true ↔ i = s.size ∨ ∃ c, s.utf8.utf8DecodeChar? i = some c := by
  rw [isBoundary_iff, String.Pos.Raw.isValid_iff_isSome_utf8DecodeChar?, Option.isSome_iff_exists,
    size_eq, s.utf8_eq]
  simp [String.Pos.Raw.ext_iff]

/-- A character that can be decoded begins at a boundary. -/
theorem isBoundary_of_decode (h : s.utf8.utf8DecodeChar? i = some c) : s.isBoundary i = true :=
  isBoundary_iff_decode.mpr (.inr ⟨c, h⟩)

/-- The bytes of a character. -/
theorem extract_of_decode (h : s.utf8.utf8DecodeChar? i = some c) :
    s.utf8.extract i (i + c.utf8Size) = (String.utf8EncodeChar c).toByteArray := by
  have hle := ByteArray.le_size_of_utf8DecodeChar?_eq_some h
  rw [ByteArray.utf8DecodeChar?_eq_utf8DecodeChar?_extract] at h
  rw [String.toByteArray_utf8EncodeChar_of_utf8DecodeChar?_eq_some h, ByteArray.extract_extract,
    Nat.add_zero, Nat.min_eq_left hle]

/-- The bytes of a character that can be decoded are those that encode it. -/
theorem byte?_of_decode (h : s.utf8.utf8DecodeChar? i = some c) (hk : k < c.utf8Size) :
    s.byte? (i + k) = (String.utf8EncodeChar c)[k]? := by
  have hle := ByteArray.le_size_of_utf8DecodeChar?_eq_some h
  have hk' : k < (String.utf8EncodeChar c).length := by simpa using hk
  have hsize : i + k < s.utf8.size := by omega
  have hin : k < (s.utf8.extract i (i + c.utf8Size)).size := by simp; omega
  have hget : s.utf8[i + k] = (s.utf8.extract i (i + c.utf8Size))[k] := by
    rw [ByteArray.getElem_extract]
  rw [byte?, dif_pos hsize, hget, List.getElem?_eq_getElem hk']
  simp [extract_of_decode h]

/-- A character ends at a boundary. -/
theorem isBoundary_add_utf8Size (h : s.utf8.utf8DecodeChar? i = some c) :
    s.isBoundary (i + c.utf8Size) = true := by
  have hle := ByteArray.le_size_of_utf8DecodeChar?_eq_some h
  have hi := isBoundary_iff.mp (isBoundary_of_decode h)
  rw [isBoundary_iff, String.Pos.Raw.isValid_iff_isValidUTF8_extract_zero]
  refine ⟨?_, ?_⟩
  · rw [String.Pos.Raw.le_iff, String.byteIdx_rawEndPos, ← size_eq]
    exact hle
  · rw [ByteArray.extract_eq_extract_append_extract i (Nat.zero_le i) (Nat.le_add_right _ _),
      ← s.utf8_eq, extract_of_decode h]
    refine ByteArray.IsValidUTF8.append ?_ Char.isValidUTF8_toByteArray_utf8EncodeChar
    rw [s.utf8_eq]
    exact hi.isValidUTF8_extract_zero

/-- An ASCII byte is a character. -/
theorem decode_of_ascii (h : s.byte? i = some b) (ha : b < 128) :
    s.utf8.utf8DecodeChar? i = some (Char.ofUInt8 b) := by
  obtain ⟨hi, hb⟩ := byte?_eq_some_iff.mp h
  -- No byte inside a longer encoding is an ASCII character, so a character begins here.
  have hfirst : s.isBoundary i = true := by
    refine isBoundary_iff.mpr (String.Pos.Raw.isValid_iff_isUTF8FirstByte.mpr (.inr ⟨?_, ?_⟩))
    · rw [String.Pos.Raw.lt_iff, String.byteIdx_rawEndPos, ← size_eq]
      exact hi
    · have hget : s.text.getUTF8Byte ⟨i⟩ (by
          rw [String.Pos.Raw.lt_iff, String.byteIdx_rawEndPos, ← size_eq]; exact hi) = b := by
        rw [← hb, String.getUTF8Byte]
        simp [s.utf8_eq]
      rw [hget]
      exact isUTF8FirstByte_of_ascii ha
  rcases isBoundary_iff_decode.mp hfirst with rfl | ⟨c, hc⟩
  · exact absurd hi (Nat.lt_irrefl _)
  · have hbyte := byte?_of_decode hc c.utf8Size_pos
    rw [Nat.add_zero, h] at hbyte
    have hmem : b ∈ String.utf8EncodeChar c := List.mem_of_getElem? hbyte.symm
    rw [hc, (eq_of_mem_utf8EncodeChar hmem ha).2]

/-- An ASCII byte stands at a boundary. -/
theorem isBoundary_of_ascii (h : s.byte? i = some b) (ha : b < 128) : s.isBoundary i = true :=
  isBoundary_of_decode (decode_of_ascii h ha)

/-- Behind an ASCII byte is a boundary. -/
theorem isBoundary_succ (h : s.byte? i = some b) (ha : b < 128) : s.isBoundary (i + 1) = true := by
  have hsize : (Char.ofUInt8 b).utf8Size = 1 := by
    have hbyte := byte?_of_decode (decode_of_ascii h ha) (Char.utf8Size_pos _)
    rw [Nat.add_zero, h] at hbyte
    exact (eq_of_mem_utf8EncodeChar (List.mem_of_getElem? hbyte.symm) ha).1
  exact hsize ▸ isBoundary_add_utf8Size (decode_of_ascii h ha)

/-! ### Stretches of bytes -/

/-- Every byte from offset `i` up to offset `j` is there and satisfies `p`. -/
def AllBytes (s : Source) (p : UInt8 → Bool) (i j : Nat) : Prop :=
  ∀ k, i ≤ k → k < j → ∃ b, s.byte? k = some b ∧ p b = true

variable {p q : UInt8 → Bool}

instance (s : Source) (p : UInt8 → Bool) (i j : Nat) : Decidable (s.AllBytes p i j) :=
  decidable_of_iff ((List.range' i (j - i)).all (fun k => (s.byte? k).any p) = true) <| by
    simp only [AllBytes, List.all_eq_true, List.mem_range'_1, Option.any_eq_true]
    grind

theorem allBytes_self : s.AllBytes p i i := fun k h1 h2 => absurd h1 (by omega)

theorem allBytes_of_byte? (h : s.byte? i = some b) (hb : p b = true) : s.AllBytes p i (i + 1) := by
  intro k hik hk
  obtain rfl : k = i := by omega
  exact ⟨b, h, hb⟩

theorem AllBytes.mono (h : s.AllBytes p i j) (hpq : ∀ b, p b = true → q b = true) :
    s.AllBytes q i j := by
  intro k hik hkj
  obtain ⟨b, hb, hp⟩ := h k hik hkj
  exact ⟨b, hb, hpq b hp⟩

theorem AllBytes.sub (h : s.AllBytes p i j) {i' j' : Nat} (hi : i ≤ i') (hj : j' ≤ j) :
    s.AllBytes p i' j' :=
  fun k hik hkj => h k (by omega) (by omega)

theorem AllBytes.append (h : s.AllBytes p i j) (h' : s.AllBytes p j k) : s.AllBytes p i k := by
  intro l hil hlk
  by_cases hlj : l < j
  · exact h l hil hlj
  · exact h' l (by omega) hlk

/-- A byte that a stretch cannot have is not found in it. -/
theorem AllBytes.ne (h : s.AllBytes p i j) (hb : p b = false) (hik : i ≤ k) (hkj : k < j) :
    s.byte? k ≠ some b := by
  obtain ⟨b', hb', hp⟩ := h k hik hkj
  rw [hb']
  rintro ⟨⟩
  rw [hp] at hb
  exact absurd hb (by simp)

/-- So the stretch consists of other bytes. -/
theorem AllBytes.bne (h : s.AllBytes p i j) (hb : p b = false) : s.AllBytes (· != b) i j := by
  refine h.mono fun b' hb' => ?_
  rw [bne_iff_ne]
  rintro rfl
  rw [hb] at hb'
  cases hb'

/-- Behind ASCII bytes is a boundary if there is one before them. -/
theorem AllBytes.isBoundary_right (h : s.AllBytes p i j) (hp : ∀ b, p b = true → b < 128)
    (hij : i ≤ j)
    (hi : s.isBoundary i = true) : s.isBoundary j = true := by
  rcases Nat.lt_or_eq_of_le hij with hlt | rfl
  · obtain ⟨b, hb, hpb⟩ := h (j - 1) (by omega) (by omega)
    rw [← Nat.sub_add_cancel (show 1 ≤ j by omega)]
    exact isBoundary_succ hb (hp b hpb)
  · exact hi

/-- ASCII bytes begin at a boundary, and if there are none, so does what follows them. -/
theorem AllBytes.isBoundary_left (h : s.AllBytes p i j) (hp : ∀ b, p b = true → b < 128)
    (hij : i ≤ j)
    (hj : s.isBoundary j = true) : s.isBoundary i = true := by
  rcases Nat.lt_or_eq_of_le hij with hlt | rfl
  · obtain ⟨b, hb, hpb⟩ := h i (Nat.le_refl i) hlt
    exact isBoundary_of_ascii hb (hp b hpb)
  · exact hj

/-- A run of bytes consists of bytes that belong to it. -/
theorem allBytes_skipWhile (p : UInt8 → Bool) (stop i : Nat) :
    s.AllBytes p i (s.skipWhile p stop i) := by
  fun_induction skipWhile s p stop i with
  | case1 i hi b hb hp ih =>
    intro k hik hk
    by_cases hki : k = i
    · exact ⟨b, hki ▸ hb, hp⟩
    · exact ih k (by omega) hk
  | case2 | case3 | case4 => exact allBytes_self

/-- A run of bytes ends at a byte that does not belong to it, if there is one left. -/
theorem byte?_skipWhile (hlt : s.skipWhile p s.size i < s.size) :
    ∃ b, s.byte? (s.skipWhile p s.size i) = some b ∧ p b = false := by
  fun_induction skipWhile s p s.size i with
  | case1 i hi b hb hp ih => exact ih hlt
  | case2 i hi b hb hp => exact ⟨b, hb, by simpa using hp⟩
  | case3 i hi hnone =>
    have hi' : i < s.utf8.size := hi
    rw [byte?, dif_pos hi'] at hnone
    cases hnone
  | case4 i hi => exact absurd hlt hi

/-- A run goes up to `j` if the bytes up to there belong to it, and the byte there does not. -/
theorem skipWhile_eq (h : s.AllBytes p i j) (hij : i ≤ j) (hj : s.byte? j = some b)
    (hb : p b = false) (hstop : j ≤ stop) : s.skipWhile p stop i = j := by
  -- By induction on the search: as long as it goes on it has not come to `j`, and it stops no
  -- earlier.
  fun_induction skipWhile s p stop i with
  | case1 i hi b' hb' hp ih =>
    have hne : i ≠ j := by
      rintro rfl
      rw [hj] at hb'
      rw [Option.some.inj hb', hp] at hb
      exact absurd hb (by simp)
    exact ih (h.sub (by omega) (Nat.le_refl j)) (by omega)
  | case2 i hi b' hb' hp =>
    by_cases hne : i = j
    · exact hne
    · obtain ⟨b'', hb'', hp''⟩ := h i (Nat.le_refl i) (by omega)
      rw [hb'] at hb''
      rw [Option.some.inj hb''] at hp
      exact absurd hp'' hp
  | case3 i hi hb' =>
    by_cases hne : i = j
    · exact hne
    · obtain ⟨b'', hb'', -⟩ := h i (Nat.le_refl i) (by omega)
      rw [hb'] at hb''
      exact absurd hb'' (by simp)
  | case4 i hi => omega

/-! ### Searches -/

/-- Bytes that stand at an offset are the bytes from there on. -/
theorem byte?_of_matchesAt {pattern : List UInt8} (h : s.matchesAt pattern i = true)
    (hk : k < pattern.length) : s.byte? (i + k) = some pattern[k] := by
  induction pattern generalizing i k with
  | nil => exact absurd hk (Nat.not_lt_zero k)
  | cons b rest ih =>
    simp only [matchesAt, Bool.and_eq_true, beq_iff_eq] at h
    cases k with
    | zero => exact h.1
    | succ k =>
      have := ih h.2 (Nat.lt_of_succ_lt_succ hk)
      rw [List.getElem_cons_succ, ← this]
      congr 1
      omega

/-- A pattern of one byte matches where that byte stands. -/
theorem matchesAt_singleton : s.matchesAt [b] i = true ↔ s.byte? i = some b := by
  simp [matchesAt]

/-- What a search for a byte finds. -/
theorem findBytes?_eq (hij : i ≤ j) (hj : s.byte? j = some b)
    (h : ∀ k, i ≤ k → k < j → s.byte? k ≠ some b) : s.findBytes? [b] i = some j := by
  fun_induction findBytes? s [b] i with
  | case1 i hi =>
    by_cases hne : i = j
    · rw [hne]
    · exact absurd (matchesAt_singleton.mp hi) (h i (Nat.le_refl i) (by omega))
  | case2 i hi hlt ih =>
    have hne : i ≠ j := by
      rintro rfl
      exact hi (matchesAt_singleton.mpr hj)
    exact ih (by omega) (fun k hik => h k (by omega))
  | case3 i hi hlt =>
    have := lt_size_of_byte? hj
    omega

/-- A search does not go past a byte that it looks for. -/
theorem findBytes?_le (hij : i ≤ j) (hj : s.byte? j = some b) :
    ∃ k, s.findBytes? [b] i = some k ∧ i ≤ k ∧ k ≤ j ∧ s.byte? k = some b := by
  fun_induction findBytes? s [b] i with
  | case1 i hi => exact ⟨i, rfl, Nat.le_refl i, hij, matchesAt_singleton.mp hi⟩
  | case2 i hi hlt ih =>
    have hne : i ≠ j := by
      rintro rfl
      exact hi (matchesAt_singleton.mpr hj)
    obtain ⟨k, hk, hle, hrest⟩ := ih (by omega)
    exact ⟨k, hk, by omega, hrest⟩
  | case3 i hi hlt =>
    have := lt_size_of_byte? hj
    omega

/-- A search for an ASCII character finds it no later than any place where it stands. -/
theorem find?_le (hc : c.utf8Size = 1) (hi : s.isBoundary i = true) (hij : i ≤ j)
    (hj : s.byte? j = some c.toUInt8) :
    ∃ k, s.find? (String.singleton c) i = some k ∧ i ≤ k ∧ k ≤ j ∧ s.byte? k = some c.toUInt8 := by
  rw [find?, if_pos hi, bytes_singleton hc]
  exact findBytes?_le hij hj

/-- What a search for an ASCII character finds. -/
theorem find?_eq (hc : c.utf8Size = 1) (hi : s.isBoundary i = true) (hij : i ≤ j)
    (hj : s.byte? j = some c.toUInt8) (h : ∀ k, i ≤ k → k < j → s.byte? k ≠ some c.toUInt8) :
    s.find? (String.singleton c) i = some j := by
  rw [find?, if_pos hi, bytes_singleton hc]
  exact findBytes?_eq hij hj h

end Source
end XmlHighlight
