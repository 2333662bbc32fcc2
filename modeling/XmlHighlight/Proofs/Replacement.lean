import XmlHighlight.Proofs.Renderers

/-!
# Replacement — only what differs

A replacement compares bytes, first from the beginning and then from the end, and goes back to whole
characters of the old text. What it keeps of the new text are whole characters, too: bytes that make
up characters in one text do so in the other.

* `Source.prefix_of_bytes`, `Source.isBoundary_iff_firstByte` — characters that two texts have in
  common;
* `StyledBuffer.commonPrefix_spec`, `StyledBuffer.commonSuffix_spec`, `StyledBuffer.snapSuffix_spec`
  — what the comparison finds;
* `StyledBuffer.Divides` — two texts that have a beginning and an end in common;
* `StyledBuffer.divides_changeBetween` — the change between two texts divides them, and leaves no
  more in the middle than it has to;
* `StyledBuffer.replaceText_splices` — a replacement is one splice;
* `replacement_is_exact` — the text and the classes after a replacement.
-/

namespace XmlHighlight

/-! ### Bytes in common -/

namespace Source

variable {s t : Source} {i : Nat}

theorem getElem?_bytes (s : Source) (i : Nat) : s.text.toByteArray.toList[i]? = s.byte? i := by
  rw [byte?, ← s.utf8_eq, byteArray_toList]
  by_cases h : i < s.utf8.size
  · rw [dif_pos h, List.getElem?_eq_getElem (by simpa using h)]
    rfl
  · rw [dif_neg h, List.getElem?_eq_none (by simpa using h)]

/-- Bytes are the same in two texts up to an offset. -/
theorem take_bytes_eq (h : ∀ k, k < i → s.byte? k = t.byte? k) :
    s.text.toByteArray.toList.take i = t.text.toByteArray.toList.take i := by
  refine List.ext_getElem? fun k => ?_
  rw [List.getElem?_take, List.getElem?_take]
  by_cases hk : k < i
  · rw [if_pos hk, if_pos hk, getElem?_bytes, getElem?_bytes, h k hk]
  · rw [if_neg hk, if_neg hk]

/-- Bytes are the same in two texts from as far before their ends on. -/
theorem drop_bytes_eq {n : Nat} (hs : n ≤ s.size) (ht : n ≤ t.size)
    (h : ∀ m, m < n → s.byte? (s.size - (m + 1)) = t.byte? (t.size - (m + 1))) :
    s.text.toByteArray.toList.drop (s.size - n) = t.text.toByteArray.toList.drop (t.size - n) := by
  refine List.ext_getElem? fun k => ?_
  rw [List.getElem?_drop, List.getElem?_drop, getElem?_bytes, getElem?_bytes]
  by_cases hk : k < n
  · have hm := h (n - k - 1) (by omega)
    rwa [show s.size - (n - k - 1 + 1) = s.size - n + k by omega,
      show t.size - (n - k - 1 + 1) = t.size - n + k by omega] at hm
  · have hnone (u : Source) (hu : n ≤ u.size) : u.byte? (u.size - n + k) = none :=
      dif_neg (show ¬u.size - n + k < u.size by omega)
    rw [hnone s hs, hnone t ht]

/-- The bytes of a text that comes first. -/
theorem byte?_of_append_left {p x : String} (h : s.text = p ++ x) {k : Nat}
    (hk : k < p.utf8ByteSize) :
    s.byte? k = p.toByteArray.toList[k]? := by
  rw [← length_bytes] at hk
  rw [← getElem?_bytes, h, StyledBuffer.bytes_append, List.getElem?_append_left hk]

/-- The bytes of a text that comes last. -/
theorem byte?_of_append_right {x q : String} (h : s.text = x ++ q) {m : Nat}
    (hm : m < q.utf8ByteSize) :
    s.byte? (s.size - (m + 1)) = q.toByteArray.toList[q.utf8ByteSize - (m + 1)]? := by
  have hsize : s.size = x.utf8ByteSize + q.utf8ByteSize := by
    rw [size_eq, h, String.utf8ByteSize_append]
  rw [← getElem?_bytes, h, StyledBuffer.bytes_append,
    List.getElem?_append_right (by rw [length_bytes]; omega), length_bytes]
  congr 1
  omega

/-- A boundary cuts a text in two. -/
theorem exists_append_of_isBoundary (h : s.isBoundary i = true) :
    ∃ p x : String, s.text = p ++ x ∧ p.utf8ByteSize = i := by
  obtain ⟨p, x, htext, hp⟩ := String.Pos.Raw.isValid_iff_exists_append.mp (isBoundary_iff.mp h)
  exact ⟨p, x, htext, congrArg String.Pos.Raw.byteIdx hp.symm⟩

theorem isBoundary_of_append {p x : String} (h : s.text = p ++ x) :
    s.isBoundary p.utf8ByteSize = true :=
  isBoundary_iff.mpr (String.Pos.Raw.isValid_iff_exists_append.mpr ⟨p, x, h, rfl⟩)

/-- Two boundaries cut a text in three. -/
theorem exists_append_of_isBoundary_of_le {j : Nat} (hi : s.isBoundary i = true)
    (hj : s.isBoundary j = true)
    (hij : i ≤ j) :
    ∃ p m x : String, s.text = p ++ m ++ x ∧ p.utf8ByteSize = i ∧ (p ++ m).utf8ByteSize = j := by
  obtain ⟨p, rest, hp, rfl⟩ := exists_append_of_isBoundary hi
  obtain ⟨q, x, hq, rfl⟩ := exists_append_of_isBoundary hj
  have hchars : p.toList ++ rest.toList = q.toList ++ x.toList := by
    rw [← String.toList_append, ← String.toList_append, ← hp, ← hq]
  rcases List.append_eq_append_iff.mp hchars with ⟨m, hm, -⟩ | ⟨m, hm, -⟩
  · have hqm : q = p ++ String.ofList m := by
      rw [← String.toList_inj, String.toList_append, String.toList_ofList, hm]
    exact ⟨p, String.ofList m, x, by rw [hq, hqm], rfl, by rw [hqm]⟩
  · -- The second offset is not before the first, so the two are equal.
    have hpm : p = q ++ String.ofList m := by
      rw [← String.toList_inj, String.toList_append, String.toList_ofList, hm]
    have hsize : (String.ofList m).utf8ByteSize = 0 := by
      rw [hpm, String.utf8ByteSize_append] at hij
      omega
    have hempty : String.ofList m = "" := String.utf8ByteSize_eq_zero_iff.mp hsize
    rw [hempty, String.append_empty] at hpm
    exact ⟨p, "", x, by rw [String.append_empty, hpm, hq], rfl, by rw [String.append_empty, hpm]⟩

/-- A text that begins with the bytes of another one begins with its characters. -/
theorem prefix_of_bytes {p : String}
    (h : s.text.toByteArray.toList.take p.utf8ByteSize = p.toByteArray.toList) :
    ∃ x, s.text = p ++ x := by
  have hlength := congrArg List.length h
  rw [List.length_take, length_bytes, length_bytes] at hlength
  have hextract : s.text.toByteArray.extract 0 p.utf8ByteSize = p.toByteArray := by
    rw [ByteArray.ext_iff, ← Array.toList_inj, ← byteArray_toList, ← byteArray_toList, ← h,
      byteArray_toList, byteArray_toList]
    simp [ByteArray.extract, ByteArray.copySlice]
  -- The bytes of `p` are whole characters, so the text can be cut behind them.
  have hboundary : s.isBoundary p.utf8ByteSize = true := by
    rw [isBoundary_iff, String.Pos.Raw.isValid_iff_isValidUTF8_extract_zero]
    refine ⟨?_, ?_⟩
    · show p.utf8ByteSize ≤ s.text.utf8ByteSize
      omega
    · rw [hextract]
      exact p.isValidUTF8
  obtain ⟨q, x, htext, hq⟩ := exists_append_of_isBoundary hboundary
  rw [htext, StyledBuffer.bytes_append, ← hq, ← length_bytes, List.take_left] at h
  exact ⟨x, by rw [htext, eq_of_bytes_eq h]⟩

/-- The byte at a boundary, if there is one, is the first of a character. -/
theorem isBoundary_iff_firstByte :
    s.isBoundary i = true ↔ i = s.size ∨ ∃ b, s.byte? i = some b ∧ b.IsUTF8FirstByte := by
  have hbyte (h : i < s.utf8.size) (h' : (⟨i⟩ : String.Pos.Raw) < s.text.rawEndPos) :
      s.text.getUTF8Byte ⟨i⟩ h' = s.utf8[i] := by
    simp [String.getUTF8Byte, s.utf8_eq]
  have hlt : (⟨i⟩ : String.Pos.Raw) < s.text.rawEndPos ↔ i < s.utf8.size := by
    rw [String.Pos.Raw.lt_iff, String.byteIdx_rawEndPos, ← size_eq, size]
  rw [isBoundary_iff, String.Pos.Raw.isValid_iff_isUTF8FirstByte, String.Pos.Raw.ext_iff,
    String.byteIdx_rawEndPos, ← size_eq]
  refine or_congr Iff.rfl ⟨?_, ?_⟩
  · rintro ⟨h, hfirst⟩
    exact ⟨_, byte?_eq_some_iff.mpr ⟨hlt.mp h, rfl⟩, hbyte (hlt.mp h) h ▸ hfirst⟩
  · rintro ⟨b, hb, hfirst⟩
    obtain ⟨h, rfl⟩ := byte?_eq_some_iff.mp hb
    exact ⟨hlt.mpr h, hbyte h (hlt.mpr h) ▸ hfirst⟩

end Source

/-! ### What the comparison finds -/

namespace StyledBuffer

variable (old new : Source)

/-- The first difference from an offset on, if there is one among the next bytes. -/
theorem commonPrefix_spec (n i : Nat) :
    let j := commonPrefix old new n i
    i ≤ j ∧ j ≤ i + n ∧ (∀ k, i ≤ k → k < j → old.byte? k = new.byte? k) ∧
      (j < i + n → old.byte? j ≠ new.byte? j) := by
  induction n generalizing i with
  | zero =>
    rw [commonPrefix]
    exact ⟨Nat.le_refl i, Nat.le_refl i, fun k hk hlt => by omega, fun hlt => by omega⟩
  | succ n ih =>
    rw [commonPrefix]
    by_cases h : old.byte? i = new.byte? i
    · rw [if_pos (beq_iff_eq.mpr h)]
      obtain ⟨hle, hbound, hsame, hdiffers⟩ := ih (i + 1)
      refine ⟨by omega, by omega, fun k hk hlt => ?_, fun hlt => hdiffers (by omega)⟩
      -- The first byte has just been compared; the others are those of the rest.
      by_cases hki : k = i
      · rw [hki, h]
      · exact hsame k (by omega) hlt
    · rw [if_neg (by simpa using h)]
      exact ⟨Nat.le_refl i, by omega, fun k hk hlt => by omega, fun _ => h⟩

/-- The same from the end on. -/
theorem commonSuffix_spec (n k : Nat) :
    let r := commonSuffix old new n k
    k ≤ r ∧ r ≤ k + n ∧
      (∀ m, k ≤ m → m < r → old.byte? (old.size - (m + 1)) = new.byte? (new.size - (m + 1))) ∧
      (r < k + n → old.byte? (old.size - (r + 1)) ≠ new.byte? (new.size - (r + 1))) := by
  induction n generalizing k with
  | zero =>
    rw [commonSuffix]
    exact ⟨Nat.le_refl k, Nat.le_refl k, fun m hm hlt => by omega, fun hlt => by omega⟩
  | succ n ih =>
    rw [commonSuffix]
    by_cases h : old.byte? (old.size - (k + 1)) = new.byte? (new.size - (k + 1))
    · rw [if_pos (beq_iff_eq.mpr h)]
      obtain ⟨hle, hbound, hsame, hdiffers⟩ := ih (k + 1)
      refine ⟨by omega, by omega, fun m hm hlt => ?_, fun hlt => hdiffers (by omega)⟩
      by_cases hmk : m = k
      · rw [hmk, h]
      · exact hsame m (by omega) hlt
    · rw [if_neg (by simpa using h)]
      exact ⟨Nat.le_refl k, by omega, fun m hm hlt => by omega, fun _ => h⟩

/-- The longest end of a text that has at most so many bytes and begins between characters. -/
theorem snapSuffix_spec (s : Source) (n : Nat) :
    let k := snapSuffix s n
    k ≤ n ∧ s.isBoundary (s.size - k) = true ∧ ∀ m ≤ n, s.isBoundary (s.size - m) = true →
    m ≤ k := by
  -- The search goes down from `n` and stops at the first boundary, which is the largest.
  induction n with
  | zero => exact ⟨Nat.le_refl 0, s.isBoundary_size, fun m hm _ => hm⟩
  | succ n ih =>
    rw [snapSuffix]
    by_cases h : s.isBoundary (s.size - (n + 1)) = true
    · rw [if_pos h]
      exact ⟨Nat.le_refl _, h, fun m hm _ => hm⟩
    · rw [if_neg h]
      obtain ⟨hle, hboundary, hlast⟩ := ih
      refine ⟨by omega, hboundary, fun m hm hm' => hlast m ?_ hm'⟩
      have hne : m ≠ n + 1 := by
        rintro rfl
        exact h hm'
      omega

/-- Two texts have so many bytes in common at the beginning, and so many at the end, both of which
    are whole characters of the old text. There are no more of them, and those at the end do not
    overlap the others. -/
structure Agree (old new : Source) (start suffix : Nat) : Prop where
  fits_old : start + suffix ≤ old.size
  fits_new : start + suffix ≤ new.size
  boundary : old.isBoundary start = true
  boundary_end : old.isBoundary (old.size - suffix) = true
  same : ∀ k, k < start → old.byte? k = new.byte? k
  same_end : ∀ m, m < suffix → old.byte? (old.size - (m + 1)) = new.byte? (new.size - (m + 1))
  longest : ∀ i, old.isBoundary i = true → i ≤ new.size →
    (∀ k, k < i → old.byte? k = new.byte? k) → i ≤ start
  longest_end : ∀ n, start + n ≤ old.size → start + n ≤ new.size →
    old.isBoundary (old.size - n) = true →
    (∀ m, m < n → old.byte? (old.size - (m + 1)) = new.byte? (new.size - (m + 1))) → n ≤ suffix

/-- What is compared agrees. -/
theorem agree_changeBetween :
    ∃ suffix, Agree old new (changeBetween old new).start suffix ∧
      (changeBetween old new).oldStop = old.size - suffix ∧
      (changeBetween old new).newStop = new.size - suffix := by
  let least := min old.size new.size
  let start := old.snap (commonPrefix old new least 0)
  let ending := commonSuffix old new (least - start) 0
  obtain ⟨-, hcommon, hsame, hdiffers⟩ := commonPrefix_spec old new least 0
  have hstart : old.IsSnapped (commonPrefix old new least 0) start := old.isSnapped_snap_self _
  obtain ⟨-, hending, hsameEnd, hdiffersEnd⟩ := commonSuffix_spec old new (least - start) 0
  obtain ⟨hsuffix, hboundaryEnd, hlastEnd⟩ := snapSuffix_spec old ending
  have hstartLe := hstart.le
  have hagree : Agree old new start (snapSuffix old ending) := by
    refine ⟨by omega, by omega, hstart.boundary, hboundaryEnd,
      fun k hk => hsame k (Nat.zero_le k) (by omega),
      fun m hm => hsameEnd m (Nat.zero_le m) (by omega), fun i hi hle hall => ?_,
      fun n hold hnew hn hall => ?_⟩
    · -- Bytes that are all the same do not go past the first difference.
      refine hstart.last i hi (Nat.le_of_not_lt fun hlt => ?_)
      have hisize := Source.le_size_of_isBoundary hi
      exact hdiffers (by omega) (hall _ hlt)
    · refine hlastEnd n (Nat.le_of_not_lt fun hlt => ?_) hn
      exact hdiffersEnd (by omega) (hall _ hlt)
  exact ⟨_, hagree, rfl, rfl⟩

/-! ### The change between two texts -/

/-- A change cuts two texts in three parts, of which the first and the last are the same in both.
    The first is the longest beginning that the texts have in common, and the last is the longest
    end that they have in common behind it. -/
structure Divides (change : Change) (old new before removed inserted after : String) : Prop where
  old_eq : old = before ++ removed ++ after
  new_eq : new = before ++ inserted ++ after
  start_eq : change.start = before.utf8ByteSize
  oldStop_eq : change.oldStop = (before ++ removed).utf8ByteSize
  newStop_eq : change.newStop = (before ++ inserted).utf8ByteSize
  longest_before : ∀ p x y, old = p ++ x → new = p ++ y → p.utf8ByteSize ≤ before.utf8ByteSize
  longest_after : ∀ x y q, old = before ++ x ++ q → new = before ++ y ++ q →
    q.utf8ByteSize ≤ after.utf8ByteSize

variable {old new} {start suffix : Nat}

/-- The bytes in common at the beginning are those of characters, which the new text begins with,
    too. -/
theorem Agree.isBoundary_start (h : Agree old new start suffix) : new.isBoundary start = true := by
  obtain ⟨before, rest, hold, rfl⟩ := Source.exists_append_of_isBoundary h.boundary
  have hbytes : new.text.toByteArray.toList.take before.utf8ByteSize
    = before.toByteArray.toList := by
    rw [← Source.take_bytes_eq h.same, hold, bytes_append, ← length_bytes, List.take_left]
  obtain ⟨x, hnew⟩ := Source.prefix_of_bytes hbytes
  exact Source.isBoundary_of_append hnew

/-- The first of the bytes in common at the end begins a character in the old text, and so in the
    new one. -/
theorem Agree.isBoundary_stop (h : Agree old new start suffix) :
    new.isBoundary (new.size - suffix) = true := by
  have hfits := h.fits_old
  cases hsuffix : suffix with
  | zero => exact new.isBoundary_size
  | succ m =>
    have hboundary := h.boundary_end
    rw [hsuffix] at hboundary hfits
    rcases Source.isBoundary_iff_firstByte.mp hboundary with hend | ⟨b, hb, hfirst⟩
    · omega
    · rw [h.same_end m (by omega)] at hb
      exact Source.isBoundary_iff_firstByte.mpr (.inr ⟨b, hb, hfirst⟩)

/-- So both texts consist of the same first part, a part of their own, and the same last part. -/
theorem Agree.exists_parts (h : Agree old new start suffix) :
    ∃ before removed inserted after : String,
      old.text = before ++ removed ++ after ∧ new.text = before ++ inserted ++ after ∧
        before.utf8ByteSize = start ∧ (before ++ removed).utf8ByteSize = old.size - suffix ∧
        (before ++ inserted).utf8ByteSize = new.size - suffix := by
  have hold := h.fits_old
  have hnew := h.fits_new
  obtain ⟨before, removed, after, holdText, hbefore, hremoved⟩ :=
    Source.exists_append_of_isBoundary_of_le h.boundary h.boundary_end (by omega)
  obtain ⟨before', inserted, after', hnewText, hbefore', hinserted⟩ :=
    Source.exists_append_of_isBoundary_of_le h.isBoundary_start h.isBoundary_stop (by omega)
  -- The same bytes before the change spell the same text, and so do those behind it.
  have hfirst : before' = before := by
    have hbytes := Source.take_bytes_eq h.same
    rw [holdText, hnewText, String.append_assoc, String.append_assoc, bytes_append before,
      bytes_append before', List.take_left' (by rw [length_bytes, hbefore]),
      List.take_left' (by rw [length_bytes, hbefore'])] at hbytes
    exact eq_of_bytes_eq hbytes.symm
  have hlast : after' = after := by
    have hbytes := Source.drop_bytes_eq (by omega) (by omega) h.same_end
    rw [holdText, hnewText, bytes_append _ after, bytes_append _ after',
      List.drop_left' (by rw [length_bytes, hremoved]),
      List.drop_left' (by rw [length_bytes, hinserted])] at hbytes
    exact eq_of_bytes_eq hbytes.symm
  subst hfirst hlast
  exact ⟨before', removed, inserted, after', holdText, hnewText, hbefore, hremoved, hinserted⟩

variable (old new) in
/-- The change between two texts divides them. -/
theorem divides_changeBetween :
    ∃ before removed inserted after,
      Divides (changeBetween old new) old.text new.text before removed inserted after := by
  obtain ⟨suffix, hagree, holdStop, hnewStop⟩ := agree_changeBetween old new
  obtain ⟨before, removed, inserted, after, hold, hnew, hbefore, hremoved, hinserted⟩ :=
    hagree.exists_parts
  have hafter : after.utf8ByteSize = suffix := by
    have hsize := old.size_eq
    have hfits := hagree.fits_old
    rw [hold, String.utf8ByteSize_append] at hsize
    omega
  -- No common prefix or suffix in whole characters is longer than the one that was taken.
  refine ⟨before, removed, inserted, after, hold, hnew, hbefore.symm, by rw [holdStop, hremoved],
    by rw [hnewStop, hinserted], fun p x y hp hp' => ?_, fun x y q hq hq' => ?_⟩
  · rw [hbefore]
    have hnewSize : p.utf8ByteSize ≤ new.size := by
      rw [new.size_eq, hp', String.utf8ByteSize_append]
      exact Nat.le_add_right _ _
    refine hagree.longest _ (Source.isBoundary_of_append hp) hnewSize fun k hk => ?_
    rw [Source.byte?_of_append_left hp hk, Source.byte?_of_append_left hp' hk]
  · rw [hafter]
    have hsizes : old.size = before.utf8ByteSize + x.utf8ByteSize + q.utf8ByteSize ∧
        new.size = before.utf8ByteSize + y.utf8ByteSize + q.utf8ByteSize := by
      simp only [Source.size_eq, hq, hq', String.utf8ByteSize_append, and_self]
    refine hagree.longest_end _ (by omega) (by omega) ?_ fun m hm => ?_
    · have hstart := Source.isBoundary_of_append hq
      rwa [String.utf8ByteSize_append,
        show before.utf8ByteSize + x.utf8ByteSize = old.size - q.utf8ByteSize by omega]
        at hstart
    · rw [Source.byte?_of_append_right hq hm, Source.byte?_of_append_right hq' hm]

end StyledBuffer

/-! ### Two splices in one place -/

/-- Elements that are taken out and replaced afterwards are replaced. -/
theorem splice_splice {α : Type} {i j : Nat} (hij : i ≤ j) (new old : List α) :
    splice i i new (splice i j [] old) = splice i j new old := by
  unfold splice
  rw [List.append_nil]
  by_cases hi : i ≤ old.length
  · have htake : (old.take i).length = i := List.length_take_of_le hi
    rw [List.take_left' htake, List.drop_left' htake]
  · -- There is nothing to take out of a list that ends before.
    rw [List.drop_of_length_le (show old.length ≤ j by omega), List.append_nil, List.take_take,
      Nat.min_self, List.drop_of_length_le (by rw [List.length_take]; omega)]

theorem splice_nil_self {α : Type} (i : Nat) (old : List α) : splice i i [] old = old := by
  simp [splice]

/-- What stands in a list into which `none` has been spliced several times. It does not matter
    whether an element is missing or `none`. -/
theorem join_getElem?_splice {α : Type} {i j : Nat} (hij : i ≤ j) (n : Nat)
    (old : List (Option α)) :
    let new := splice i j (List.replicate n none) old
    (∀ k, k < i → new[k]?.join = old[k]?.join) ∧ (∀ k, new[i + n + k]?.join = old[j + k]?.join) ∧
      ∀ k, i ≤ k → k < i + n → new[k]?.join = none := by
  unfold splice
  by_cases hi : i ≤ old.length
  · have htake : (old.take i).length = i := List.length_take_of_le hi
    refine ⟨fun k hk => ?_, fun k => ?_, fun k hk hlt => ?_⟩
    · rw [List.append_assoc, List.getElem?_append_left (by omega), List.getElem?_take, if_pos hk]
    · rw [List.getElem?_append_right (by simp [htake]), List.getElem?_drop]
      simp only [List.length_append, htake, List.length_replicate, Nat.add_sub_cancel_left]
    · rw [List.append_assoc, List.getElem?_append_right (by omega), htake,
        List.getElem?_append_left (by rw [List.length_replicate]; omega),
        List.getElem?_replicate_of_lt (by omega), Option.join_some]
  · -- A list that ends before is only made longer.
    have hpad (k : Nat) : (old ++ List.replicate n none)[k]?.join = old[k]?.join := by
      by_cases hk : k < old.length
      · rw [List.getElem?_append_left hk]
      · rw [List.getElem?_append_right (Nat.le_of_not_lt hk), List.getElem?_replicate,
          List.getElem?_eq_none (Nat.le_of_not_lt hk)]
        split <;> rfl
    have hnone (k : Nat) (hk : i ≤ k) : old[k]?.join = none := by
      rw [List.getElem?_eq_none (by omega), Option.join_none]
    rw [List.drop_of_length_le (show old.length ≤ j by omega), List.append_nil,
      List.take_of_length_le (show old.length ≤ i by omega)]
    refine ⟨fun k _ => hpad k, fun k => ?_, fun k hk _ => ?_⟩
    · rw [hpad, hnone _ (by omega), hnone _ (by omega)]
    · rw [hpad, hnone k hk]

/-- At a boundary an edit takes effect at once. -/
theorem Source.IsSnapped.eq_of_isBoundary {s : Source} {offset i : Nat} (h : s.IsSnapped offset i)
    (hoffset : s.isBoundary offset = true) : i = offset :=
  Nat.le_antisymm h.le (h.last offset hoffset (Nat.le_refl offset))

namespace StyledBuffer

variable {b : StyledBuffer} {text before removed inserted after : String} {i j : Nat}

/-- Inserting at a boundary splices the bytes and, as blank ones, the classes. -/
theorem insert_at_boundary (hi : b.source.isBoundary i = true) (text : String) :
    (b.insert i text).bytes = splice i i text.toByteArray.toList b.bytes ∧
      (b.insert i text).classes.toList
        = splice i i (List.replicate text.utf8ByteSize none) b.classes.toList := by
  obtain ⟨k, hk, hbytes, hclasses⟩ := b.insert_splices i text
  obtain rfl := hk.eq_of_isBoundary hi
  exact ⟨hbytes, hclasses⟩

/-- Removing between boundaries takes out the bytes and their classes. -/
theorem remove_at_boundaries (hi : b.source.isBoundary i = true) (hj : b.source.isBoundary j = true)
    (hij : i ≤ j) :
    (b.remove i j).bytes = splice i j [] b.bytes ∧
      (b.remove i j).classes.toList = splice i j [] b.classes.toList := by
  obtain ⟨k, l, hk, hl, hbytes, hclasses⟩ := b.remove_splices i j
  obtain rfl := hk.eq_of_isBoundary hi
  obtain rfl := hl.eq_of_isBoundary hj
  rw [Nat.max_eq_left hij] at hbytes hclasses
  exact ⟨hbytes, hclasses⟩

/-! ### A replacement -/

/-- The part of a text between two others. -/
theorem slice?_append {s : Source} {before part after : String}
    (h : s.text = before ++ part ++ after) :
    s.slice? before.utf8ByteSize (before ++ part).utf8ByteSize = some part := by
  have hstart : s.isBoundary before.utf8ByteSize = true :=
    Source.isBoundary_of_append (h.trans (String.append_assoc ..))
  have hstop : s.isBoundary (before ++ part).utf8ByteSize = true := Source.isBoundary_of_append h
  have hle : before.utf8ByteSize ≤ (before ++ part).utf8ByteSize := by
    rw [String.utf8ByteSize_append]
    exact Nat.le_add_right _ _
  rw [slice?_of_isBoundary hstart hstop hle]
  refine congrArg some (eq_of_bytes_eq ?_)
  have hbytes : s.utf8.toList
      = before.toByteArray.toList ++ part.toByteArray.toList ++ after.toByteArray.toList := by
    rw [Source.utf8_eq, h, bytes_append, bytes_append]
  rw [bytes_slice hstart hstop hle, hbytes, ← length_bytes, ← length_bytes, bytes_append,
    List.take_left, List.drop_left]

/-- What is put in is the part of the new text between the two others. -/
theorem Divides.slice?_eq {change : Change} {old : String}
    (h : Divides change old text before removed inserted after) :
    (Source.ofText text).slice? change.start change.newStop = some inserted := by
  have htext : (Source.ofText text).text = before ++ inserted ++ after := h.new_eq
  rw [h.start_eq, h.newStop_eq, slice?_append htext]

/-- **Splice.** A replacement of the text is one splice of the classes. -/
theorem replaceText_splices
    (h : Divides (changeBetween b.source (.ofText text)) b.text text before removed inserted
      after) :
    (b.replaceText text).text = text ∧
      (b.replaceText text).classes.toList
        = splice before.utf8ByteSize (before ++ removed).utf8ByteSize
            (List.replicate inserted.utf8ByteSize none) b.classes.toList := by
  have hslice : (Source.ofText text).slice before.utf8ByteSize (before ++ inserted).utf8ByteSize
    = inserted := by
    have hsome := h.slice?_eq
    rw [h.start_eq, h.newStop_eq] at hsome
    rw [Source.slice, hsome, Option.getD_some]
  have hremoved : (before ++ removed).utf8ByteSize = before.utf8ByteSize + removed.utf8ByteSize :=
    String.utf8ByteSize_append ..
  have hinserted : (before ++ inserted).utf8ByteSize
    = before.utf8ByteSize + inserted.utf8ByteSize :=
    String.utf8ByteSize_append ..
  unfold replaceText
  simp only [h.start_eq, h.oldStop_eq, h.newStop_eq, hslice]
  by_cases hnothing : before.utf8ByteSize = (before ++ removed).utf8ByteSize ∧
      before.utf8ByteSize = (before ++ inserted).utf8ByteSize
  · -- Neither text has a part of its own, so the buffer stays as it is.
    have hnoRemoved : removed = "" := String.utf8ByteSize_eq_zero_iff.mp (by omega)
    have hnoInserted : inserted = "" := String.utf8ByteSize_eq_zero_iff.mp (by omega)
    have htext : b.text = text := by rw [h.old_eq, h.new_eq, hnoRemoved, hnoInserted]
    rw [if_pos hnothing, ← hnothing.1, hnoInserted]
    exact ⟨htext, (splice_nil_self _ _).symm⟩
  · rw [if_neg hnothing]
    have hstart : b.source.isBoundary before.utf8ByteSize = true :=
      Source.isBoundary_of_append (h.old_eq.trans (String.append_assoc ..))
    have hstop : b.source.isBoundary (before ++ removed).utf8ByteSize = true :=
      Source.isBoundary_of_append h.old_eq
    obtain ⟨hshorter, hshorterClasses⟩ := remove_at_boundaries hstart hstop (by omega)
    generalize b.remove before.utf8ByteSize (before ++ removed).utf8ByteSize = shorter at *
    have hshorterText : shorter.text = before ++ after := by
      refine eq_of_bytes_eq (hshorter.trans ?_)
      rw [bytes, h.old_eq, bytes_append, bytes_append, bytes_append,
        splice_append _ _ _ _ (length_bytes before).symm (by rw [← bytes_append, length_bytes]),
        List.append_nil]
    obtain ⟨hbytes, hclasses⟩ := insert_at_boundary (b := shorter) (i := before.utf8ByteSize)
      (Source.isBoundary_of_append hshorterText) inserted
    refine ⟨eq_of_bytes_eq (hbytes.trans ?_), ?_⟩
    · have hplace := splice_append before.toByteArray.toList [] after.toByteArray.toList
        inserted.toByteArray.toList (length_bytes before).symm (j := before.utf8ByteSize)
        (by rw [List.append_nil, length_bytes])
      rw [List.append_nil] at hplace
      rw [bytes, hshorterText, h.new_eq, bytes_append, bytes_append, bytes_append, hplace]
    · rw [hclasses, hshorterClasses, splice_splice (by omega)]

end StyledBuffer

/-- **Replacement.** The change between the text of a buffer and a new text begins between
    characters of both, and ends between characters of each. So the part of the new text that is to
    be put in can be cut out of it. Afterwards the buffer has the new text. The bytes before the
    change have the classes that they had, and so have those behind it, wherever they stand now. The
    bytes between have none. The part that is kept at the beginning is the longest one that the
    texts have in common, in whole characters, and the part at the end is the longest one behind
    it. -/
theorem replacement_is_exact (b : StyledBuffer) (text : String) :
    let new := Source.ofText text
    let change := StyledBuffer.changeBetween b.source new
    let result := b.replaceText text
    change.start ≤ change.oldStop ∧ change.start ≤ change.newStop ∧
      b.source.isBoundary change.start = true ∧ new.isBoundary change.start = true ∧
      b.source.isBoundary change.oldStop = true ∧ new.isBoundary change.newStop = true ∧
      result.text = text ∧
      (∀ i, i < change.start → result.classAt i = b.classAt i) ∧
      (∀ k, result.classAt (change.newStop + k) = b.classAt (change.oldStop + k)) ∧
      (∀ i, change.start ≤ i → i < change.newStop → result.classAt i = none) ∧
      ∃ before removed inserted after,
        StyledBuffer.Divides change b.text text before removed inserted after ∧
          new.slice? change.start change.newStop = some inserted := by
  intro new change result
  obtain ⟨before, removed, inserted, after, hdivides⟩ :=
    StyledBuffer.divides_changeBetween b.source new
  have hdivides : StyledBuffer.Divides change b.text text before removed inserted after := hdivides
  obtain ⟨htext, hclasses⟩ := StyledBuffer.replaceText_splices hdivides
  have hremoved : change.oldStop = change.start + removed.utf8ByteSize := by
    rw [hdivides.oldStop_eq, hdivides.start_eq, String.utf8ByteSize_append]
  have hinserted : change.newStop = change.start + inserted.utf8ByteSize := by
    rw [hdivides.newStop_eq, hdivides.start_eq, String.utf8ByteSize_append]
  have hoverlap : change.start ≤ change.oldStop := by omega
  rw [← hdivides.start_eq, ← hdivides.oldStop_eq] at hclasses
  -- The classes are spliced as the bytes are, with blank ones for what is inserted.
  obtain ⟨hfirst, hlast, hmiddle⟩ :=
    join_getElem?_splice hoverlap inserted.utf8ByteSize b.classes.toList
  rw [← hclasses, ← hinserted] at hlast
  rw [← hclasses] at hfirst
  rw [← hclasses, ← hinserted] at hmiddle
  simp only [← StyledBuffer.classAt_eq] at hfirst hlast hmiddle
  refine ⟨hoverlap, by omega, ?_, ?_, ?_, ?_, htext, hfirst, hlast, hmiddle, before, removed,
    inserted, after, hdivides, hdivides.slice?_eq⟩
  · rw [hdivides.start_eq]
    exact Source.isBoundary_of_append (hdivides.old_eq.trans (String.append_assoc ..))
  · rw [hdivides.start_eq]
    exact Source.isBoundary_of_append (hdivides.new_eq.trans (String.append_assoc ..))
  · rw [hdivides.oldStop_eq]
    exact Source.isBoundary_of_append hdivides.old_eq
  · rw [hdivides.newStop_eq]
    exact Source.isBoundary_of_append hdivides.new_eq

/-- The first bytes of the two letters are the same, but the letters are not. -/
example : StyledBuffer.changeBetween (.ofText "<é>") (.ofText "<è>") = ⟨1, 3, 3⟩ := by
  decide +kernel

/-- A letter that both the beginning and the end might keep is kept at the beginning. -/
example : StyledBuffer.changeBetween (.ofText "aaa") (.ofText "aa") = ⟨2, 3, 2⟩ := by decide +kernel

end XmlHighlight
