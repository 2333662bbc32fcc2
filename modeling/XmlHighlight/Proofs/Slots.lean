import XmlHighlight.Proofs.Layout

/-!
# Slots of a tag — what the byte lexer finds

The attributes of a start tag are read twice: by the reader of the document, and by a lexer that
looks at bytes alone. The lexer finds every slot that stands in the tag, and stops where the tag
ends.

* `Slot.read?_of_standsAt` — a slot is read where it stands;
* `slots_of_standAt` — the slots of a tag are the ones that stand in it;
* `slots_of_nameByte` — there are none if the lexer begins inside a name.
-/

namespace XmlHighlight

open Xml (isSpace isQuote)

variable {s : Source} {i j k close : Nat} {b : UInt8} {slot : Slot} {place : AttributePlace}
  {written : List Slot} {places : List AttributePlace}

/-! ### Bytes between things -/

/-- The blanks of XML are blanks of ASCII. -/
theorem isAsciiBlank_of_isSpace (h : isSpace b = true) : isAsciiBlank b = true := by
  simp only [isSpace, Bool.or_eq_true, beq_iff_eq] at h
  rcases h with ((rfl | rfl) | rfl) | rfl <;> decide

/-- A byte of a name is not blank, and does not end a tag or a name. -/
theorem isSlotNameByte_iff : isSlotNameByte b = true ↔
    isAsciiBlank b = false ∧ b ≠ byteOf '=' ∧ b ≠ byteOf '/' ∧ b ≠ byteOf '>' := by
  simp only [isSlotNameByte, Bool.and_eq_true, Bool.not_eq_true', bne_iff_ne, and_assoc]
  exact Iff.rfl

/-- A stretch that ends at a byte begins with a byte of its own, or is empty. -/
theorem Source.AllBytes.head {p : UInt8 → Bool} (h : s.AllBytes p i j) (hij : i ≤ j)
    (hj : s.byte? j = some b) : ∃ b', s.byte? i = some b' ∧ (p b' = true ∨ b' = b) := by
  rcases Nat.lt_or_eq_of_le hij with hlt | rfl
  · obtain ⟨b', hb', hp⟩ := h i (Nat.le_refl i) hlt
    exact ⟨b', hb', .inl hp⟩
  · exact ⟨b, hj, .inr rfl⟩

/-- Blanks are skipped up to the first byte that is none. -/
theorem skipBlank_eq (h : s.AllBytes isAsciiBlank i j) (hij : i ≤ j) (hj : s.byte? j = some b)
    (hb : isAsciiBlank b = false) : Slot.skipBlank s i = j :=
  Source.skipWhile_eq h hij hj hb (Nat.le_of_lt (Source.lt_size_of_byte? hj))

/-- A name ends at a byte that it cannot have. -/
theorem nameEnd_eq (h : s.AllBytes isSlotNameByte i j) (hij : i ≤ j) (hj : s.byte? j = some b)
    (hb : isSlotNameByte b = false) : s.skipWhile isSlotNameByte s.size i = j :=
  Source.skipWhile_eq h hij hj hb (Nat.le_of_lt (Source.lt_size_of_byte? hj))

/-! ### One slot -/

theorem isAsciiBlank_of_isQuote (h : isQuote b = true) : isAsciiBlank b = false := by
  simp only [isQuote, Bool.or_eq_true, beq_iff_eq] at h
  rcases h with rfl | rfl <;> decide

/-- A quote is an ASCII character. -/
theorem lt_of_isQuote (h : isQuote b = true) : b < 128 := by
  simp only [isQuote, Bool.or_eq_true, beq_iff_eq] at h
  rcases h with rfl | rfl <;> decide

theorem lt_of_isAsciiBlank (h : isAsciiBlank b = true) : b < 128 := by
  simp only [isAsciiBlank, Bool.or_eq_true, beq_iff_eq] at h
  rcases h with (((rfl | rfl) | rfl) | rfl) | rfl <;> decide

/-- The byte behind the name of a slot does not belong to a name. -/
theorem Slot.StandsAt.byte?_nameStop (h : slot.StandsAt s isAsciiBlank place) :
    ∃ b, s.byte? slot.name.stop = some b ∧ isSlotNameByte b = false := by
  obtain ⟨b, hb, hblank | rfl⟩ := h.before.head h.name_le h.equals
  · refine ⟨b, hb, ?_⟩
    rw [isSlotNameByte, hblank]
    rfl
  · exact ⟨_, hb, by decide⟩

/-- A slot begins with a byte of its name. -/
theorem Slot.StandsAt.byte?_start (h : slot.StandsAt s isAsciiBlank place) :
    ∃ b, s.byte? place.start = some b ∧ isSlotNameByte b = true :=
  h.name place.start (Nat.le_refl _) h.name_lt

/-- What is read, step by step. -/
theorem Slot.read?_eq_some {n e o c : Nat} {q : UInt8}
    (hn : s.skipWhile isSlotNameByte s.size i = n)
    (he : skipBlank s n = e) (ho : skipBlank s (e + 1) = o) (hq : s.byte? o = some q)
    (hc : s.skipWhile (· != q) s.size (o + 1) = c) (hname : i < n)
    (hequals : s.byte? e = some (byteOf '=')) (hquote : isQuote q = true) (hsize : c < s.size)
    (hlt : i < c + 1) : Slot.read? s i = some (⟨⟨i, n⟩, q, ⟨o + 1, c⟩⟩, ⟨c + 1, hlt⟩) := by
  subst hn he ho hc
  rw [Slot.read?]
  dsimp only
  split
  · next hnone =>
    rw [hq] at hnone
    cases hnone
  · next q' hq' =>
    rw [hq] at hq'
    cases hq'
    rw [if_pos]
    simp only [Bool.and_eq_true, decide_eq_true_eq, beq_iff_eq]
    exact ⟨⟨⟨hname, hequals⟩, hquote⟩, hsize⟩

/-- A slot is read where it stands. -/
theorem Slot.read?_of_standsAt (h : slot.StandsAt s isAsciiBlank place) :
    ∃ hlt, Slot.read? s place.start = some (slot, ⟨place.closing + 1, hlt⟩) := by
  obtain ⟨b, hb, hnot⟩ := h.byte?_nameStop
  -- Each of the three searches stops where the next part of the attribute stands.
  have hname := nameEnd_eq h.name (Nat.le_of_lt h.name_lt) hb hnot
  have hequals := skipBlank_eq h.before h.name_le h.equals (by decide)
  have hopening := skipBlank_eq h.after h.equals_lt h.opening (isAsciiBlank_of_isQuote h.quote)
  have hsize := Source.lt_size_of_byte? h.closing
  have hclosing := Source.skipWhile_eq h.inside h.opening_lt h.closing (by simp)
    (Nat.le_of_lt hsize)
  have hlt : place.start < place.closing + 1 := by
    have := h.name_lt
    have := h.name_le
    have := h.equals_lt
    have := h.opening_lt
    omega
  have hslot : slot
    = ⟨⟨place.start, slot.name.stop⟩, slot.quote, ⟨place.opening + 1, place.closing⟩⟩ := by
    rw [← h.value, ← h.start]
  rw [hslot]
  exact ⟨hlt, Slot.read?_eq_some hname hequals hopening h.opening hclosing h.name_lt h.equals
    h.quote
    hsize hlt⟩

/-- No slot is read where no name begins, or where no `=` comes behind the name. -/
theorem Slot.read?_eq_none {n e : Nat} (hn : s.skipWhile isSlotNameByte s.size i = n)
    (he : skipBlank s n = e) (h : n ≤ i ∨ s.byte? e ≠ some (byteOf '=')) :
    Slot.read? s i = none := by
  subst hn he
  rw [Slot.read?]
  dsimp only
  split
  · rfl
  · rw [if_neg]
    simp only [Bool.and_eq_true, decide_eq_true_eq, beq_iff_eq]
    rintro ⟨⟨⟨hlt, heq⟩, -⟩, -⟩
    rcases h with hle | hne
    · exact absurd hlt (Nat.not_lt.mpr hle)
    · exact absurd heq hne

/-- What is read is a slot of the text. -/
theorem Slot.standsAt_of_read? {hlt : i < k} (h : Slot.read? s i = some (slot, ⟨k, hlt⟩)) :
    ∃ place, slot.StandsAt s isAsciiBlank place ∧ place.start = i ∧ k = place.closing + 1 := by
  rw [Slot.read?] at h
  dsimp only at h
  split at h
  · cases h
  · next quote hquote =>
    split at h
    · next hguard =>
      simp only [Bool.and_eq_true, decide_eq_true_eq, beq_iff_eq] at hguard
      obtain ⟨⟨⟨hname, hequals⟩, hisQuote⟩, hclose⟩ := hguard
      cases h
      obtain ⟨b, hb, hends⟩ := Source.byte?_skipWhile hclose
      obtain rfl : b = quote := by simpa using hends
      exact ⟨⟨i, _, _, _⟩, {
        start := rfl
        name := Source.allBytes_skipWhile _ _ _
        name_lt := hname
        name_le := le_skipBlank s _
        before := Source.allBytes_skipWhile _ _ _
        equals := hequals
        equals_lt := le_skipBlank s _
        after := Source.allBytes_skipWhile _ _ _
        quote := hisQuote
        opening := hquote
        value := rfl
        opening_lt := s.le_skipWhile _ _ _
        inside := Source.allBytes_skipWhile _ _ _
        closing := hb }, rfl, rfl⟩
    · cases h

/-! ### All slots of a tag -/

/-- Slots are read until one cannot be. -/
theorem Slot.readAll_of_none (hskip : skipBlank s i = j) (hread : Slot.read? s j = none)
    (found : List Slot) : Slot.readAll s i found = found.reverse := by
  subst hskip
  rw [Slot.readAll]
  rw [hread]
  exact ite_self _

/-- Behind a slot that has been read the others are read. -/
theorem Slot.readAll_of_some (hskip : skipBlank s i = j) (hj : j < s.size) {hlt : j < k}
    (hread : Slot.read? s j = some (slot, ⟨k, hlt⟩)) (found : List Slot) :
    Slot.readAll s i found = Slot.readAll s k (slot :: found) := by
  subst hskip
  rw [Slot.readAll]
  rw [hread, if_pos hj]

theorem Slot.StandsAt.mono {p q : UInt8 → Bool} (hpq : ∀ b, p b = true → q b = true)
    (h : slot.StandsAt s p place) : slot.StandsAt s q place :=
  { h with before := h.before.mono hpq, after := h.after.mono hpq }

/-- Slots that stand among some bytes stand among more of them as well. -/
theorem SlotsStandAt.mono {p q : UInt8 → Bool} (hpq : ∀ b, p b = true → q b = true)
    (h : SlotsStandAt s p i written places j) : SlotsStandAt s q i written places j := by
  induction h with
  | nil i => exact .nil i
  | cons le_start blanks first _ ih => exact .cons le_start (blanks.mono hpq) (first.mono hpq) ih

/-- Each of some slots has a place. -/
theorem SlotsStandAt.exists_place {blank : UInt8 → Bool}
    (h : SlotsStandAt s blank i written places j) :
    ∀ slot ∈ written, ∃ place, slot.StandsAt s blank place := by
  induction h with
  | nil => exact List.forall_mem_nil _
  | cons _ _ first _ ih => exact List.forall_mem_cons.mpr ⟨⟨_, first⟩, ih⟩

/-- There is only one slot at a place, since the lexer reads only one there. -/
theorem Slot.StandsAt.unique {other : Slot} {place' : AttributePlace}
    (h : slot.StandsAt s isSpace place)
    (h' : other.StandsAt s isSpace place') (heq : slot.name.start = other.name.start) :
    slot = other := by
  obtain ⟨hlt, hread⟩ := Slot.read?_of_standsAt (h.mono fun _ => isAsciiBlank_of_isSpace)
  obtain ⟨hlt', hread'⟩ := Slot.read?_of_standsAt (h'.mono fun _ => isAsciiBlank_of_isSpace)
  have hplace : place.start = place'.start := by rw [← h.start, ← h'.start, heq]
  have hslot : (Slot.read? s place.start).map Prod.fst = some slot := by
    rw [hread]
    rfl
  have hother : (Slot.read? s place'.start).map Prod.fst = some other := by
    rw [hread']
    rfl
  rw [hplace, hother, Option.some.injEq] at hslot
  exact hslot.symm

/-- **Reading.** All slots that stand in a tag are read, and no others, if `/` or `>` follows
    them. -/
theorem Slot.readAll_of_standAt (h : SlotsStandAt s isAsciiBlank i written places j)
    (hle : j ≤ close) (hblanks : s.AllBytes isAsciiBlank j close) (hclose : s.byte? close = some b)
    (hb : b = byteOf '/' ∨ b = byteOf '>') (found : List Slot) :
    Slot.readAll s i found = found.reverse ++ written := by
  have hblank : isAsciiBlank b = false ∧ isSlotNameByte b = false := by
    rcases hb with rfl | rfl <;> decide
  induction h generalizing found with
  | nil i =>
    -- The lexer stops at the end of the tag, which begins no name.
    have hskip := skipBlank_eq hblanks hle hclose hblank.1
    have hname : s.skipWhile isSlotNameByte s.size close = close :=
      nameEnd_eq Source.allBytes_self (Nat.le_refl _) hclose hblank.2
    have hnone : Slot.read? s close = none := Slot.read?_eq_none hname rfl (.inl (Nat.le_refl _))
    rw [Slot.readAll_of_none hskip hnone, List.append_nil]
  | @cons i j slot place written places le_start blanks first _ ih =>
    obtain ⟨b', hb', hname⟩ := first.byte?_start
    have hskip := skipBlank_eq blanks le_start hb' (isSlotNameByte_iff.mp hname).1
    obtain ⟨hlt, hread⟩ := Slot.read?_of_standsAt first
    rw [Slot.readAll_of_some hskip (Source.lt_size_of_byte? hb') hread, ih hle hblanks,
      List.reverse_cons, List.append_assoc]
    rfl

/-- Whatever is read, slots of the text are. -/
theorem Slot.readAll_standAt (i : Nat) (found : List Slot) :
    ∃ written places j, Slot.readAll s i found = found.reverse ++ written ∧
      SlotsStandAt s isAsciiBlank i written places j := by
  fun_induction Slot.readAll s i found with
  | case1 i found j hij hj slot k hk hread ih =>
    obtain ⟨written, places, last, hall, hstand⟩ := ih
    obtain ⟨place, hslot, hstart, rfl⟩ := Slot.standsAt_of_read? hread
    refine ⟨slot :: written, place :: places, last, ?_, .cons ?_ ?_ hslot hstand⟩
    · rw [hall, List.reverse_cons, List.append_assoc]
      rfl
    · rw [hstart]
      exact hij
    · rw [hstart]
      exact Source.allBytes_skipWhile _ _ _
  | case2 i found => exact ⟨[], [], i, (List.append_nil _).symm, .nil i⟩
  | case3 i found => exact ⟨[], [], i, (List.append_nil _).symm, .nil i⟩

/-- The slots that the lexer finds stand in the text. -/
theorem slots_standAt (s : Source) (i : Nat) :
    ∃ places j, SlotsStandAt s isAsciiBlank i (slots s i) places j := by
  obtain ⟨written, places, j, hall, hstand⟩ := Slot.readAll_standAt (s := s) i []
  rw [slots, hall]
  exact ⟨places, j, hstand⟩

/-! ### The rest of a tag -/

variable {rest : TagRest} {empty : Bool}

/-- A tag ends with `/` or `>`. -/
theorem TagRest.StandsAt.byte?_close (h : rest.StandsAt s empty i j) :
    ∃ b, s.byte? rest.close = some b ∧ (b = byteOf '/' ∨ b = byteOf '>') := by
  cases empty with
  | true => exact ⟨_, h.closing.1, .inl rfl⟩
  | false => exact ⟨_, h.closing, .inr rfl⟩

/-- The slots of a tag are the ones that stand in it. -/
theorem slots_of_standAt (h : rest.StandsAt s empty i j) : slots s i = rest.slots := by
  obtain ⟨b, hclose, hb⟩ := h.byte?_close
  exact Slot.readAll_of_standAt (h.slots.mono fun _ => isAsciiBlank_of_isSpace) h.last_le
    (h.spaces.mono fun _ => isAsciiBlank_of_isSpace) hclose hb []

/-- Behind the name of a tag and white space stands an attribute, if there is one, or the end of the
    tag. -/
theorem TagRest.StandsAt.following (h : rest.StandsAt s empty i j) :
    ∃ k b, i ≤ k ∧ s.AllBytes isSpace i k ∧ s.byte? k = some b ∧
      ((b = byteOf '/' ∨ b = byteOf '>') ∨ isSlotNameByte b = true ∧ i < k) := by
  obtain ⟨b, hclose, hb⟩ := h.byte?_close
  obtain ⟨written, places, last, close⟩ := rest
  obtain ⟨hslots, hapart, hle, hspaces, -, -⟩ := h
  cases hslots with
  | nil => exact ⟨close, b, hle, hspaces, hclose, .inl hb⟩
  | @cons _ _ slot place _ _ le_start blanks first _ =>
    obtain ⟨b', hb', hname⟩ := first.name place.start (Nat.le_refl _) first.name_lt
    exact ⟨place.start, b', le_start, blanks, hb', .inr ⟨hname, hapart place List.mem_cons_self⟩⟩

/-- The byte behind the name of a tag is white space, or ends the tag. -/
theorem TagRest.StandsAt.byte?_nameEnd (h : rest.StandsAt s empty i j) :
    ∃ b, s.byte? i = some b ∧ (isSpace b = true ∨ b = byteOf '/' ∨ b = byteOf '>') := by
  obtain ⟨k, b, hik, hspaces, hk, hb⟩ := h.following
  rcases Nat.lt_or_eq_of_le hik with hlt | rfl
  · obtain ⟨b', hb', hspace⟩ := hspaces i (Nat.le_refl i) hlt
    exact ⟨b', hb', .inl hspace⟩
  · rcases hb with hb | ⟨-, hlt⟩
    · exact ⟨b, hk, .inr hb⟩
    · exact absurd hlt (Nat.lt_irrefl i)

/-- There are no slots if the lexer begins inside the name of a tag: it takes the rest of the name
    for the name of a slot, and then there is no `=`. -/
theorem slots_of_nameByte {nameEnd : Nat} (hlt : i < nameEnd)
    (hname : s.AllBytes isSlotNameByte i nameEnd) (h : rest.StandsAt s empty nameEnd j) :
    slots s i = [] := by
  obtain ⟨b, hb, hnot⟩ := h.byte?_nameEnd
  have hnot : isSlotNameByte b = false := by
    rcases hnot with hspace | rfl | rfl
    · rw [isSlotNameByte, isAsciiBlank_of_isSpace hspace]
      rfl
    · decide
    · decide
  obtain ⟨k, b', hik, hspaces, hk, hb'⟩ := h.following
  have hfollowing : isAsciiBlank b' = false ∧ b' ≠ byteOf '=' := by
    rcases hb' with (rfl | rfl) | ⟨hname, -⟩
    · decide
    · decide
    · have hnot := isSlotNameByte_iff.mp hname
      exact ⟨hnot.1, hnot.2.1⟩
  have hskip := skipBlank_eq (hspaces.mono fun _ => isAsciiBlank_of_isSpace) hik hk hfollowing.1
  -- The byte behind the name and the white space would have to be `=`.
  have hnone : Slot.read? s i = none := by
    refine Slot.read?_eq_none (nameEnd_eq hname (Nat.le_of_lt hlt) hb hnot) hskip (.inr ?_)
    rw [hk, Ne, Option.some.injEq]
    exact hfollowing.2
  obtain ⟨first, hfirst, hfirst_name⟩ := hname i (Nat.le_refl i) hlt
  exact Slot.readAll_of_none (skipBlank_eq Source.allBytes_self (Nat.le_refl i) hfirst
    (isSlotNameByte_iff.mp hfirst_name).1) hnone []

end XmlHighlight
