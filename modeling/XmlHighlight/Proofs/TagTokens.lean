import XmlHighlight.Proofs.Positions
import XmlHighlight.Proofs.Slots
import XmlHighlight.Proofs.SpanOrder
import XmlHighlight.Token.Stream

/-!
# Tags and comments as tokens

The token of a tag is made from the text again: its name is read by other rules than those of the
document reader, and its end tag is searched for. Whatever comes of this, the token paints inside
the tag.

* `LineCursor.IsOn` — a cursor that has found all its positions in the text;
* `qualifiedName_of_standsAt` — the name of a token is a part of the name of the tag, from its
  beginning on;
* `startToken_paintsWithin`, `endToken_paintsWithin`, `commentToken_paintsWithin` — where tokens
  paint.
-/

namespace XmlHighlight

open Xml (isSpace Extent)

variable {s : Source} {i j nameEnd close stop : Nat} {cursor : LineCursor}

/-! ### Cursors -/

/-- A cursor stands at an offset of the text. -/
def LineCursor.IsOn (s : Source) (c : LineCursor) : Prop := ∃ i ≤ s.size, c = atOffset s i

theorem LineCursor.isOn_atOffset (hi : i ≤ s.size) : (atOffset s i).IsOn s := ⟨i, hi, rfl⟩

/-- A cursor on the text moves to any offset of it. -/
theorem LineCursor.IsOn.moveTo (h : cursor.IsOn s) (hj : j ≤ s.size) :
    cursor.moveTo s j = atOffset s j := by
  obtain ⟨i, hi, rfl⟩ := h
  rw [moveTo_atOffset s hi, Nat.min_eq_left hj]

/-- It stays on the text wherever it is told to move. -/
theorem LineCursor.IsOn.isOn_moveTo (h : cursor.IsOn s) (j : Nat) : (cursor.moveTo s j).IsOn s := by
  obtain ⟨i, hi, rfl⟩ := h
  rw [moveTo_atOffset s hi]
  exact isOn_atOffset (Nat.min_le_right _ _)

/-! ### Names -/

/-- A byte that ends the name of a tag, as a character. -/
theorem ends_qualifiedName {b : UInt8} (hb : isSpace b = true ∨ b = byteOf '/' ∨ b = byteOf '>') :
    b < 128 ∧ (!isBlank (Char.ofUInt8 b) && Char.ofUInt8 b != '/' && Char.ofUInt8 b != '>')
      = false := by
  simp only [isSpace, Bool.or_eq_true, beq_iff_eq] at hb
  rcases hb with (((rfl | rfl) | rfl) | rfl) | rfl | rfl <;> decide

/-- The name that is read from the text again is the name of the tag, or the part of it that comes
    before a character that is blank and belongs to the name. -/
theorem qualifiedName_of_standsAt {b : UInt8} (h : NameStandsAt s stop i nameEnd)
    (hnext : s.byte? nameEnd = some b) (hb : isSpace b = true ∨ b = byteOf '/' ∨ b = byteOf '>') :
    ∃ e, i ≤ e ∧ e ≤ nameEnd ∧ s.isBoundary i = true ∧ s.isBoundary e = true ∧
      qualifiedName s i = s.slice i e := by
  obtain ⟨hascii, hends⟩ := ends_qualifiedName hb
  have hfirst := h.chars.isBoundary_left h.lt
  have hsize := Nat.le_of_lt (Source.lt_size_of_byte? hnext)
  have hstops : ∀ c, s.char? s.size nameEnd = some c →
      (!isBlank c && c != '/' && c != '>') = false := by
    intro c hc
    obtain ⟨-, hdecode⟩ := Source.char?_eq_some_iff.mp hc
    rw [Source.decode_of_ascii hnext hascii, Option.some.injEq] at hdecode
    rw [← hdecode]
    exact hends
  -- The search stops at the end of the name, or before it at a character that counts as blank.
  rcases Source.skipChars_of_allChars h.chars hsize hstops with heq
    | ⟨e, c, heq, hie, hle, hchar, -⟩
  · refine ⟨nameEnd, Nat.le_of_lt h.lt, Nat.le_refl _, hfirst,
      Source.isBoundary_of_ascii hnext hascii, ?_⟩
    rw [qualifiedName, heq]
  · have := c.utf8Size_pos
    refine ⟨e, hie, by omega, hfirst, Source.isBoundary_of_decode hchar, ?_⟩
    rw [qualifiedName, heq]

/-! ### Attributes -/

/-- The values that a document gives to attributes are not longer than the slots they come from. -/
def ValuesFit (values : List (Nat × String)) (slots : List Slot) : Prop :=
  ∀ slot ∈ slots, ∀ entry, values.find? (·.1 == slot.name.start) = some entry →
    entry.2.utf8ByteSize ≤ slot.value.stop - slot.value.start

variable {values : List (Nat × String)} {written : List Slot} {places : List AttributePlace}

/-- The name of a slot ends at a boundary. -/
theorem Slot.StandsAt.isBoundary_nameStop {slot : Slot} {place : AttributePlace}
    (h : slot.StandsAt s isAsciiBlank place) : s.isBoundary slot.name.stop = true :=
  h.before.isBoundary_left (fun _ => lt_of_isAsciiBlank) h.name_le
    (Source.isBoundary_of_ascii h.equals (by decide))

/-- A quote as a character. -/
theorem ofNat_quote {b : UInt8} (h : Xml.isQuote b = true) :
    (Char.ofNat b.toNat = '"' ∨ Char.ofNat b.toNat = '\'') ∧ byteOf (Char.ofNat b.toNat) = b := by
  simp only [Xml.isQuote, Bool.or_eq_true, beq_iff_eq] at h
  rcases h with rfl | rfl <;> decide

/-- The value of an attribute made from a slot is not longer than the slot if the one that the
    document gives to it is not. -/
theorem utf8ByteSize_slotAttribute {slot : Slot}
    (hfit : ∀ entry, values.find? (·.1 == slot.name.start) = some entry →
      entry.2.utf8ByteSize ≤ slot.value.stop - slot.value.start) (pos : TextPos) :
    (slotAttribute s values slot pos).value.utf8ByteSize ≤ slot.value.stop - slot.value.start := by
  unfold slotAttribute
  dsimp only
  split
  · next entry hentry => exact hfit _ hentry
  · exact s.utf8ByteSize_slice_le _ _

/-- An attribute made from a slot agrees with the text. -/
theorem slotAttribute_standsAt (hsize : s.size < UInt64.size) {slot : Slot} {place : AttributePlace}
    (h : slot.StandsAt s isSpace place) (hstart : s.isBoundary place.start = true)
    (hfit : ∀ entry, values.find? (·.1 == slot.name.start) = some entry →
      entry.2.utf8ByteSize ≤ slot.value.stop - slot.value.start) :
    (slotAttribute s values slot (LineCursor.atOffset s place.start).pos).StandsAt s (.build s)
      place := by
  obtain ⟨hquote, hbyte⟩ := ofNat_quote h.quote
  have hnameStop := (h.mono fun _ => isAsciiBlank_of_isSpace).isBoundary_nameStop
  have hname : (s.slice slot.name.start slot.name.stop).utf8ByteSize
    = slot.name.stop - place.start := by
    rw [h.start]
    exact Source.utf8ByteSize_slice hstart hnameStop (Nat.le_of_lt h.name_lt)
  have hstop : place.start + (s.slice slot.name.start slot.name.stop).utf8ByteSize
    = slot.name.stop := by
    have := h.name_lt
    omega
  -- The index finds the offset of the name again; all else is as the slot has it.
  exact {
    offset := LineIndex.offsetAt_atOffset s (Source.le_size_of_isBoundary hstart) hsize
    name := by
      show s.matchesAt (s.slice slot.name.start slot.name.stop).toByteArray.toList place.start
        = true
      rw [h.start]
      exact Source.matchesAt_slice hstart hnameStop (Nat.le_of_lt h.name_lt)
    name_le := by
      show place.start + (s.slice slot.name.start slot.name.stop).utf8ByteSize ≤ place.equals
      rw [hstop]
      exact h.name_le
    before := by
      show s.AllBytes isSpace
        (place.start + (s.slice slot.name.start slot.name.stop).utf8ByteSize) place.equals
      rw [hstop]
      exact h.before
    equals := h.equals
    equals_lt := h.equals_lt
    after := h.after
    quote := hquote
    opening := by
      show s.byte? place.opening = some (byteOf (Char.ofNat slot.quote.toNat))
      rw [hbyte]
      exact h.opening
    opening_lt := h.opening_lt
    value := by
      show s.AllBytes (· != byteOf (Char.ofNat slot.quote.toNat)) (place.opening + 1) place.closing
      rw [hbyte]
      exact h.inside
    closing := by
      show s.byte? place.closing = some (byteOf (Char.ofNat slot.quote.toNat))
      rw [hbyte]
      exact h.closing
    decoded_le := by
      have hle := utf8ByteSize_slotAttribute (s := s) hfit (LineCursor.atOffset s place.start).pos
      rw [h.value] at hle
      exact hle }

/-- The attributes made from the slots of a tag agree with the text. -/
theorem slotAttributes_standAt (hsize : s.size < UInt64.size)
    (h : SlotsStandAt s isSpace i written places j) (hi : s.isBoundary i = true)
    (hfit : ValuesFit values written) (hcursor : cursor.IsOn s) :
    AttributesStandAt s (.build s) i (slotAttributes s values cursor written).1 places j ∧
      (slotAttributes s values cursor written).2.IsOn s := by
  -- The cursor has moved on to the attribute before when it is asked for the next one.
  induction h generalizing cursor with
  | nil i => exact ⟨.nil i, hcursor⟩
  | @cons i j slot place written places le_start blanks first _ ih =>
    have hstart := blanks.isBoundary_right (fun _ => lt_of_isSpace) le_start hi
    have hmove : cursor.moveTo s slot.name.start = LineCursor.atOffset s place.start := by
      rw [first.start]
      exact hcursor.moveTo (Source.le_size_of_isBoundary hstart)
    obtain ⟨hslot, hslots⟩ := List.forall_mem_cons.mp hfit
    have hbehind := Source.isBoundary_succ first.closing (lt_of_isQuote first.quote)
    obtain ⟨hattrs, hlast⟩ := ih hbehind hslots
      (LineCursor.isOn_atOffset (Source.le_size_of_isBoundary hstart))
    rw [slotAttributes, hmove]
    exact ⟨.cons le_start (slotAttribute_standsAt hsize first hstart hslot) hattrs, hlast⟩

/-! ### Start tags -/

variable {rest : TagRest} {empty : Bool}

/-- The parts that a start tag is made of. -/
theorem startToken_eq (extent : Extent) (cursor : LineCursor) :
    let name := qualifiedName s (extent.start + 1)
    let start := cursor.moveTo s (extent.start + 1)
    let read := slotAttributes s values start (slots s (extent.start + 1 + name.utf8ByteSize))
    startToken s values extent cursor
      = (.startTag name start.pos read.1 (isSelfClosing s extent), read.2) :=
  rfl

/-- White space, attributes and white space lie between the name of a tag and its end. -/
theorem SlotsStandAt.le {blank : UInt8 → Bool} (h : SlotsStandAt s blank i written places j) :
    i ≤ j := by
  induction h with
  | nil i => exact Nat.le_refl i
  | cons le_start _ first _ ih =>
    have := first.name_lt
    have := first.name_le
    have := first.equals_lt
    have := first.opening_lt
    omega

/-- A tag ends with `>`. -/
theorem TagRest.StandsAt.byte?_stop (h : rest.StandsAt s empty i j) :
    i < j ∧ s.byte? (j - 1) = some (byteOf '>') := by
  have hle := Nat.le_trans h.slots.le h.last_le
  have hclosing := h.closing
  rw [h.stop_eq]
  cases empty with
  | true => exact ⟨Nat.lt_of_le_of_lt hle (Nat.lt_add_of_pos_right (by decide)), hclosing.2⟩
  | false => exact ⟨Nat.lt_of_le_of_lt hle (Nat.lt_add_of_pos_right (by decide)), hclosing⟩

/-- The first `>` from inside the name of a tag on is in the tag, and not right there. -/
theorem TagRest.StandsAt.seek_tagEnd (h : rest.StandsAt s empty nameEnd j)
    (hi : s.isBoundary i = true) (hlt : i < nameEnd)
    (hbytes : s.AllBytes isSlotNameByte i nameEnd) :
    ∃ k, seek s '>' .tagEnd i = ⟨[], .ok k⟩ ∧ i < k ∧ k < j := by
  obtain ⟨hj, hgreater⟩ := h.byte?_stop
  obtain ⟨k, hk, hik, hkj, hbyte⟩ :=
    Source.find?_le (show '>'.utf8Size = 1 by decide) hi (by omega) hgreater
  have hne : i ≠ k := by
    rintro rfl
    exact hbytes.ne (by decide) (Nat.le_refl i) hlt hbyte
  refine ⟨k, ?_, by omega, by omega⟩
  rw [seek, hk]
  rfl

/-- The token of a start tag paints inside the tag. -/
theorem startToken_paintsWithin (hsize : s.size < UInt64.size)
    (h : StartTagStandsAt s stop i nameEnd rest empty j) (hfit : ValuesFit values rest.slots)
    {extent : Extent} (hstart : extent.start = i) (hself : isSelfClosing s extent = empty)
    (hcursor : cursor.IsOn s) :
    (startToken s values extent cursor).1.PaintsWithin s (.build s) i j ∧
      (startToken s values extent cursor).2.IsOn s := by
  obtain ⟨b, hb, hends⟩ := h.rest.byte?_nameEnd
  obtain ⟨e, hie, hle, hfirst, he, hname⟩ := qualifiedName_of_standsAt h.name hb hends
  have hnameSize : (qualifiedName s (i + 1)).utf8ByteSize = e - (i + 1) := by
    rw [hname, Source.utf8ByteSize_slice hfirst he hie]
  have hnameStop : i + 1 + (qualifiedName s (i + 1)).utf8ByteSize = e := by omega
  have hmove := hcursor.moveTo (Source.le_size_of_isBoundary hfirst)
  have hon := LineCursor.isOn_atOffset (Source.le_size_of_isBoundary hfirst)
  have hoffset := LineIndex.offsetAt_atOffset s (Source.le_size_of_isBoundary hfirst) hsize
  rw [startToken_eq, hstart, hself]
  simp only [hmove, hnameStop]
  rcases Nat.lt_or_eq_of_le hle with hlt | rfl
  · -- The name is cut off, so no attribute is found, and the first `>` behind the cut ends the
    -- token.
    have hbytes := (allBytes_of_nameChars h.name.chars).sub hie (Nat.le_refl nameEnd)
    rw [slots_of_nameByte hlt hbytes h.rest]
    refine ⟨?_, hon⟩
    obtain ⟨k, hk, hek, hkj⟩ := h.rest.seek_tagEnd he hlt hbytes
    refine paintsWithin_startTag (if empty then k - 1 else k) hoffset hnameStop rfl
      (Nat.le_refl e) ?_ ?_ ?_
    · rw [hk]
      cases empty with
      | true => rw [if_pos rfl, if_pos rfl, Nat.sub_add_cancel (by omega)]
      | false => rfl
    · split <;> omega
    · split <;> omega
  · rw [slots_of_standAt h.rest]
    obtain ⟨hattrs, hlast⟩ := slotAttributes_standAt hsize h.rest.slots he hfit hon
    exact ⟨paintsWithin_startTag _ hoffset hnameStop (attributesSpans_of_standAt hattrs)
      hattrs.spansWithin (seek_close h.rest.last_le h.rest.spaces h.rest.closing) h.rest.last_le
      (Nat.le_of_eq h.rest.stop_eq.symm), hlast⟩

/-! ### End tags -/

/-- A search backwards finds the last place of a pattern. -/
theorem findLastBytes?_eq {pattern : List UInt8} {lo k n : Nat} (hlo : lo ≤ k) (hk : k ≤ lo + n)
    (hmatch : s.matchesAt pattern k = true)
    (hlater : ∀ m, k < m → m ≤ lo + n → s.matchesAt pattern m = false) :
    s.findLastBytes? pattern lo n = some k := by
  induction n with
  | zero =>
    obtain rfl : lo = k := by omega
    rw [Source.findLastBytes?, if_pos hmatch]
  | succ n ih =>
    rw [Source.findLastBytes?]
    by_cases heq : k = lo + n + 1
    · rw [← heq, if_pos hmatch]
    · rw [hlater (lo + n + 1) (by omega) (by omega), if_neg (by simp)]
      exact ih (by omega) fun m hkm hm => hlater m hkm (by omega)

/-- There is no `<` in an end tag but the one it begins with. -/
theorem EndTagStandsAt.allBytes (h : EndTagStandsAt s stop i nameEnd close) :
    s.AllBytes (· != byteOf '<') (i + 1) (close + 1) := by
  have hname : s.AllBytes (· != byteOf '<') (i + 2) nameEnd := by
    refine h.name.chars.allBytes fun b hb => ?_
    obtain rfl : b = byteOf '<' := by simpa using hb
    decide
  have hspaces : s.AllBytes (· != byteOf '<') nameEnd close := h.spaces.bne (by decide)
  exact (Source.allBytes_of_byte? h.slash (by decide)).append
    (hname.append (hspaces.append (Source.allBytes_of_byte? h.closing (by decide))))

theorem bytes_endOpening : "</".toByteArray.toList = [byteOf '<', byteOf '/'] := by
  rw [bytes_eq_flatMap]
  decide

/-- The last `</` before the end of an element is that of its end tag. -/
theorem EndTagStandsAt.findLast? (h : EndTagStandsAt s stop i nameEnd close) {lo : Nat}
    (hlo : lo ≤ i) :
    s.findLast? "</" lo (close + 1) = some i := by
  have hsize : "</".utf8ByteSize = 2 := by decide
  have hlt := h.name.lt
  have hle := h.name_le
  rw [Source.findLast?, hsize, bytes_endOpening, if_pos (by omega)]
  refine findLastBytes?_eq hlo (by omega) ?_ fun m him hm => ?_
  · simp [Source.matchesAt, h.opening, h.slash]
  · have hne : s.byte? m ≠ some (byteOf '<') := h.allBytes.ne (by decide) him (by omega)
    simp [Source.matchesAt, hne]

/-- The token of an end tag paints inside the tag. -/
theorem endToken_paintsWithin (hsize : s.size < UInt64.size)
    (h : EndTagStandsAt s stop i nameEnd close)
    {extent : Extent} (hstart : extent.start ≤ i) (hstop : extent.stop = close + 1)
    (hcursor : cursor.IsOn s) {token : Token} {last : LineCursor}
    (htoken : endToken? s extent cursor = some (token, last)) :
    token.PaintsWithin s (.build s) i (close + 1) ∧ last.IsOn s := by
  obtain ⟨b, hb, hends⟩ : ∃ b, s.byte? nameEnd = some b ∧
      (isSpace b = true ∨ b = byteOf '/' ∨ b = byteOf '>') := by
    obtain ⟨b, hb, hspace | rfl⟩ := h.spaces.head h.name_le h.closing
    · exact ⟨b, hb, .inl hspace⟩
    · exact ⟨_, hb, .inr (.inr rfl)⟩
  obtain ⟨e, hie, hle, hfirst, he, hname⟩ := qualifiedName_of_standsAt h.name hb hends
  have hnameSize : (qualifiedName s (i + 2)).utf8ByteSize = e - (i + 2) := by
    rw [hname, Source.utf8ByteSize_slice hfirst he hie]
  have hnameStop : i + 2 + (qualifiedName s (i + 2)).utf8ByteSize = e := by omega
  have hmove := hcursor.moveTo (Source.le_size_of_isBoundary hfirst)
  have hoffset := LineIndex.offsetAt_atOffset s (Source.le_size_of_isBoundary hfirst) hsize
  have hbytes : s.AllBytes (· != byteOf '>') e close := by
    have hrest := (allBytes_of_nameChars h.name.chars).sub hie (Nat.le_refl nameEnd)
    exact (hrest.bne (by decide)).append (h.spaces.bne (by decide))
  -- The last `</` in the text of the element is the one of its end tag.
  unfold endToken? at htoken
  split at htoken
  · cases htoken
  · rw [hstop, h.findLast? hstart] at htoken
    simp only [Option.map_some, Option.some.injEq, Prod.mk.injEq, hmove] at htoken
    obtain ⟨rfl, rfl⟩ := htoken
    refine ⟨paintsWithin_endTag hoffset (by rw [hnameStop]; exact Nat.le_trans hle h.name_le) ?_,
      LineCursor.isOn_atOffset (Source.le_size_of_isBoundary hfirst)⟩
    rw [hnameStop]
    exact seek_eq .tagEnd (by decide) he (Nat.le_trans hle h.name_le) hbytes (by decide) h.closing

/-! ### Comments -/

/-- The token of a comment paints inside the comment. -/
theorem commentToken_paintsWithin (hsize : s.size < UInt64.size) {extent : Extent}
    (hextent : extent.start + 7 ≤ extent.stop) (hstop : extent.stop ≤ s.size)
    (hcursor : cursor.IsOn s) :
    (commentToken s extent cursor).1.PaintsWithin s (.build s) (extent.start + 4) extent.stop ∧
      (commentToken s extent cursor).2.IsOn s := by
  have hle : extent.start + 4 ≤ s.size := by omega
  have hbody := s.utf8ByteSize_slice_le (extent.start + 4)
    (max (extent.stop - 3) (extent.start + 4))
  unfold commentToken
  dsimp only
  rw [hcursor.moveTo hle]
  exact ⟨paintsWithin_comment (LineIndex.offsetAt_atOffset s hle hsize) (by omega),
    LineCursor.isOn_atOffset hle⟩

end XmlHighlight
