import XmlHighlight.Proofs.Replacement
import XmlHighlight.Proofs.Slots

/-!
# Laid-out slots — attributes as they are written, and as they are read

Attributes may be laid out in many ways: names and values of any characters but a few, and white
space around each of them or none. The byte lexer reads any such layout back. What it reads from any
other text, from any offset on, are at least parts of the text that lie one behind the other.

* `Source.HasText` — a part of a text by its offset;
* `WrittenAttribute`, `layOut` — attributes with the white space around them, and their text;
* `slotsAt` — the slots that they should have;
* `slotsAt_standAt` — a text that is laid out has slots at these places;
* `Slot.IsSound`, `SlotsStandAt.inOrder` — what holds of all slots, wherever they come from;
* `slots_as_laid_out` — what the lexer reads.
-/

namespace XmlHighlight

open Xml (isQuote)

/-! ### Parts of a text -/

namespace Source

variable {s : Source} {i : Nat} {part next : String}

/-- A part of the text begins at an offset. -/
def HasText (s : Source) (part : String) (i : Nat) : Prop :=
  ∃ before after, s.text = before ++ part ++ after ∧ before.utf8ByteSize = i

/-- The first and the second half of a part. -/
theorem HasText.split (h : s.HasText (part ++ next) i) :
    s.HasText part i ∧ s.HasText next (i + part.utf8ByteSize) := by
  obtain ⟨before, after, htext, rfl⟩ := h
  refine ⟨⟨before, next ++ after, ?_, rfl⟩, before ++ part, after, ?_,
    String.utf8ByteSize_append ..⟩
  · rw [htext, ← String.append_assoc, ← String.append_assoc]
  · rw [htext, ← String.append_assoc]

/-- A text that stands there can be cut out. -/
theorem HasText.slice? (h : s.HasText part i) : s.slice? i (i + part.utf8ByteSize) = some part := by
  obtain ⟨before, after, htext, rfl⟩ := h
  rw [← String.utf8ByteSize_append]
  exact StyledBuffer.slice?_append htext

/-- The bytes of a part are bytes of the text. -/
theorem HasText.byte? (h : s.HasText part i) {k : Nat} {b : UInt8}
    (hk : part.toByteArray.toList[k]? = some b) : s.byte? (i + k) = some b := by
  obtain ⟨before, after, htext, rfl⟩ := h
  have hlt := (List.getElem?_eq_some_iff.mp hk).1
  rw [← getElem?_bytes, htext, StyledBuffer.bytes_append, StyledBuffer.bytes_append, ← length_bytes,
    List.append_assoc, List.getElem?_append_right (Nat.le_add_right _ _), Nat.add_sub_cancel_left,
    List.getElem?_append_left hlt, hk]

/-- A stretch has the bytes of the part that stands there. -/
theorem HasText.allBytes {p : UInt8 → Bool} (h : s.HasText part i)
    (hp : ∀ b ∈ part.toByteArray.toList, p b = true) : s.AllBytes p i (i + part.utf8ByteSize) := by
  intro k hik hk
  obtain ⟨n, rfl⟩ := Nat.exists_eq_add_of_le hik
  have hn : n < part.toByteArray.toList.length := by
    rw [length_bytes]
    omega
  exact ⟨_, h.byte? (List.getElem?_eq_getElem hn), hp _ (List.getElem_mem hn)⟩

/-- A part begins with the byte of its first character if that is an ASCII character. -/
theorem HasText.byte?_head {c : Char} (h : s.HasText part i) (hhead : part.toList.head? = some c)
    (hc : c.utf8Size = 1) : s.byte? i = some (byteOf c) := by
  obtain ⟨tail, htail⟩ := List.head?_eq_some_iff.mp hhead
  refine h.byte? (k := 0) ?_
  rw [bytes_eq_flatMap, htail, List.flatMap_cons, String.utf8EncodeChar_eq_singleton hc]
  rfl

end Source

/-! ### Attributes as they are written -/

/-- An ASCII character that is white space. -/
def isAsciiBlankChar (c : Char) : Bool :=
  c == ' ' || c == '\t' || c == '\n' || c == '\x0c' || c == '\r'

/-- A character that the name of an attribute may have. -/
def isSlotNameChar (c : Char) : Bool := !isAsciiBlankChar c && c != '=' && c != '/' && c != '>'

/-- White space, as much of it as one likes. -/
structure Spacing where
  text : String
  blank : text.toList.all isAsciiBlankChar = true

/-- An attribute, with the white space before its name and around its `=`. -/
structure WrittenAttribute where
  beforeName : Spacing
  name : String
  beforeEquals : Spacing
  afterEquals : Spacing
  quote : Char
  value : String
  name_ne : name ≠ ""
  name_plain : name.toList.all isSlotNameChar = true
  quote_eq : quote = '"' ∨ quote = '\''
  value_plain : quote ∉ value.toList

namespace WrittenAttribute

variable (a : WrittenAttribute)

/-- The attribute as text. -/
def text : String :=
  a.beforeName.text ++ a.name ++ a.beforeEquals.text ++ "=" ++ a.afterEquals.text
    ++ String.singleton a.quote ++ a.value ++ String.singleton a.quote

/-- Where the parts of the attribute are if its text begins at offset `i`. -/
def placeAt (i : Nat) : AttributePlace :=
  let start := i + a.beforeName.text.utf8ByteSize
  let equals := start + a.name.utf8ByteSize + a.beforeEquals.text.utf8ByteSize
  let opening := equals + 1 + a.afterEquals.text.utf8ByteSize
  ⟨start, equals, opening, opening + 1 + a.value.utf8ByteSize⟩

/-- The slot of the attribute if its text begins at offset `i`. -/
def slotAt (i : Nat) : Slot :=
  let place := a.placeAt i
  ⟨⟨place.start, place.start + a.name.utf8ByteSize⟩, byteOf a.quote,
    ⟨place.opening + 1, place.closing⟩⟩

end WrittenAttribute

/-- Attributes as text, one behind the other. -/
def layOut : List WrittenAttribute → String
  | [] => ""
  | a :: rest => a.text ++ layOut rest

/-- The places of attributes whose text begins at offset `i`. -/
def placesAt (i : Nat) : List WrittenAttribute → List AttributePlace
  | [] => []
  | a :: rest => a.placeAt i :: placesAt (i + a.text.utf8ByteSize) rest

/-- The slots of attributes whose text begins at offset `i`. -/
def slotsAt (i : Nat) : List WrittenAttribute → List Slot
  | [] => []
  | a :: rest => a.slotAt i :: slotsAt (i + a.text.utf8ByteSize) rest

/-- The name, the quote and the value of a slot, as they stand in the text. -/
def Slot.parts (s : Source) (slot : Slot) : Option String × Char × Option String :=
  (s.slice? slot.name.start slot.name.stop, Char.ofNat slot.quote.toNat,
    s.slice? slot.value.start slot.value.stop)

/-! ### What they are made of -/

variable {s : Source} {i j : Nat}

/-- A blank character is a blank byte. -/
theorem utf8EncodeChar_of_isAsciiBlankChar {c : Char} (h : isAsciiBlankChar c = true) :
    ∃ b, String.utf8EncodeChar c = [b] ∧ isAsciiBlank b = true := by
  simp only [isAsciiBlankChar, Bool.or_eq_true, beq_iff_eq] at h
  rcases h with (((rfl | rfl) | rfl) | rfl) | rfl <;> exact ⟨_, rfl, by decide⟩

/-- A byte that no name may have is an ASCII character that no name may have. -/
theorem ascii_of_not_isSlotNameByte {b : UInt8} (h : isSlotNameByte b = false) :
    b < 128 ∧ isSlotNameChar (Char.ofUInt8 b) = false := by
  simp only [isSlotNameByte, isAsciiBlank, Bool.and_eq_false_iff, Bool.not_eq_false',
    bne_eq_false_iff_eq, Bool.or_eq_true, beq_iff_eq] at h
  rcases h with ((((((rfl | rfl) | rfl) | rfl) | rfl) | rfl) | rfl) | rfl <;> decide

/-- White space consists of blank bytes. -/
theorem Spacing.isAsciiBlank (spacing : Spacing) :
    ∀ b ∈ spacing.text.toByteArray.toList, isAsciiBlank b = true := by
  intro b hb
  rw [bytes_eq_flatMap, List.mem_flatMap] at hb
  obtain ⟨c, hc, hb⟩ := hb
  obtain ⟨b', hbytes, hblank⟩ :=
    utf8EncodeChar_of_isAsciiBlankChar (List.all_eq_true.mp spacing.blank c hc)
  rw [hbytes, List.mem_singleton] at hb
  rw [hb]
  exact hblank

namespace WrittenAttribute

variable (a : WrittenAttribute)

/-- A name consists of bytes that a name may have. -/
theorem isSlotNameByte : ∀ b ∈ a.name.toByteArray.toList, isSlotNameByte b = true := by
  intro b hb
  by_contra hnot
  obtain ⟨hascii, hchar⟩ := ascii_of_not_isSlotNameByte (by simpa using hnot)
  refine not_mem_bytes hascii (fun hmem => ?_) hb
  rw [List.all_eq_true.mp a.name_plain _ hmem] at hchar
  cases hchar

theorem name_pos : 0 < a.name.utf8ByteSize :=
  Nat.pos_of_ne_zero fun h => a.name_ne (String.utf8ByteSize_eq_zero_iff.mp h)

theorem isQuote_byteOf : isQuote (byteOf a.quote) = true := by
  rcases a.quote_eq with h | h <;> rw [h] <;> decide

theorem utf8Size_quote : a.quote.utf8Size = 1 := by
  rcases a.quote_eq with h | h <;> rw [h] <;> decide

theorem ofNat_byteOf_quote : Char.ofNat (byteOf a.quote).toNat = a.quote := by
  rcases a.quote_eq with h | h <;> rw [h] <;> decide

/-- A value does not have the byte of its quote. -/
theorem bne_quote : ∀ b ∈ a.value.toByteArray.toList, (b != byteOf a.quote) = true := by
  intro b hb
  rw [bne_iff_ne]
  rintro rfl
  have hchar : byteOf a.quote < 128 ∧ Char.ofUInt8 (byteOf a.quote) = a.quote := by
    rcases a.quote_eq with h | h <;> rw [h] <;> decide
  refine not_mem_bytes hchar.1 ?_ hb
  rw [hchar.2]
  exact a.value_plain

/-- Behind the text of an attribute is its closing quote. -/
theorem add_utf8ByteSize_text (i : Nat) : i + a.text.utf8ByteSize = (a.placeAt i).closing + 1 := by
  simp only [text, placeAt, String.utf8ByteSize_append, String.utf8ByteSize_singleton,
    a.utf8Size_quote, show "=".utf8ByteSize = 1 from rfl]
  omega

/-! ### Reading what has been written -/

/-- The parts of a written attribute, each at its place. -/
structure PartsAt (s : Source) (i : Nat) : Prop where
  beforeName : s.HasText a.beforeName.text i
  name : s.HasText a.name (a.placeAt i).start
  beforeEquals : s.HasText a.beforeEquals.text ((a.placeAt i).start + a.name.utf8ByteSize)
  equals : s.HasText "=" (a.placeAt i).equals
  afterEquals : s.HasText a.afterEquals.text ((a.placeAt i).equals + 1)
  opening : s.HasText (String.singleton a.quote) (a.placeAt i).opening
  value : s.HasText a.value ((a.placeAt i).opening + 1)
  closing : s.HasText (String.singleton a.quote) (a.placeAt i).closing

variable {a}

/-- The parts of an attribute stand one behind the other, where it stands. -/
theorem partsAt_of_hasText (h : s.HasText a.text i) : a.PartsAt s i := by
  -- The text is a chain of parts, and the last of them is split off first.
  obtain ⟨h, hclosing⟩ := h.split
  obtain ⟨h, hvalue⟩ := h.split
  obtain ⟨h, hopening⟩ := h.split
  obtain ⟨h, hafter⟩ := h.split
  obtain ⟨h, hequals⟩ := h.split
  obtain ⟨h, hbefore⟩ := h.split
  obtain ⟨hspacing, hname⟩ := h.split
  simp only [String.utf8ByteSize_append, String.utf8ByteSize_singleton, a.utf8Size_quote,
    ← Nat.add_assoc, show "=".utf8ByteSize = 1 from rfl]
    at hname hbefore hequals hafter hopening hvalue hclosing
  exact ⟨hspacing, hname, hbefore, hequals, hafter, hopening, hvalue, hclosing⟩

/-- The slot of a written attribute stands where the attribute has been written. -/
theorem slotAt_standsAt (h : s.HasText a.text i) :
    (a.slotAt i).StandsAt s isAsciiBlank (a.placeAt i) := by
  have hparts := partsAt_of_hasText h
  exact {
    start := rfl
    name := hparts.name.allBytes a.isSlotNameByte
    name_lt := Nat.lt_add_of_pos_right a.name_pos
    name_le := Nat.le_add_right _ _
    before := hparts.beforeEquals.allBytes a.beforeEquals.isAsciiBlank
    equals := hparts.equals.byte?_head rfl (by decide)
    equals_lt := Nat.le_add_right _ _
    after := hparts.afterEquals.allBytes a.afterEquals.isAsciiBlank
    quote := a.isQuote_byteOf
    opening := hparts.opening.byte?_head (by rw [String.toList_singleton]; rfl) a.utf8Size_quote
    value := rfl
    opening_lt := Nat.le_add_right _ _
    inside := hparts.value.allBytes a.bne_quote
    closing := hparts.closing.byte?_head (by rw [String.toList_singleton]; rfl) a.utf8Size_quote }

/-- The slot of an attribute holds its name, its quote and its value. -/
theorem parts_slotAt (h : s.HasText a.text i) :
    (a.slotAt i).parts s = (some a.name, a.quote, some a.value) := by
  have hparts := partsAt_of_hasText h
  rw [Slot.parts]
  exact Prod.ext hparts.name.slice? (Prod.ext a.ofNat_byteOf_quote hparts.value.slice?)

end WrittenAttribute

variable {written : List WrittenAttribute}

/-- The slots of attributes stand where the attributes have been written. -/
theorem slotsAt_standAt (h : s.HasText (layOut written) i) :
    SlotsStandAt s isAsciiBlank i (slotsAt i written) (placesAt i written)
      (i + (layOut written).utf8ByteSize) := by
  induction written generalizing i with
  | nil => exact .nil i
  | cons a rest ih =>
    obtain ⟨hfirst, hrest⟩ := h.split
    refine .cons (Nat.le_add_right _ _) ?_ (WrittenAttribute.slotAt_standsAt hfirst) ?_
    · exact (WrittenAttribute.partsAt_of_hasText hfirst).beforeName.allBytes
        a.beforeName.isAsciiBlank
    · rw [layOut, String.utf8ByteSize_append, ← Nat.add_assoc,
        ← WrittenAttribute.add_utf8ByteSize_text]
      exact ih hrest

/-- The slots of attributes hold what was written. -/
theorem map_parts_slotsAt (h : s.HasText (layOut written) i) :
    (slotsAt i written).map (Slot.parts s) = written.map fun a =>
      (some a.name, a.quote, some a.value) := by
  induction written generalizing i with
  | nil => rfl
  | cons a rest ih =>
    obtain ⟨hfirst, hrest⟩ := h.split
    rw [slotsAt, List.map_cons, List.map_cons, WrittenAttribute.parts_slotAt hfirst, ih hrest]

/-! ### Slots of any text -/

/-- A slot lies in the text, name before value. It has a name, and its quote is not in its value. -/
structure Slot.IsSound (s : Source) (slot : Slot) : Prop where
  name_lt : slot.name.start < slot.name.stop
  name_before : slot.name.stop < slot.value.start
  value_le : slot.value.start ≤ slot.value.stop
  value_lt : slot.value.stop < s.size
  quote : isQuote slot.quote = true
  value_plain : s.AllBytes (· != slot.quote) slot.value.start slot.value.stop

variable {blank : UInt8 → Bool} {slot : Slot} {place : AttributePlace} {found : List Slot}
  {places : List AttributePlace}

/-- A slot that stands in the text has all its bounds. -/
theorem Slot.StandsAt.isSound (h : slot.StandsAt s blank place) : slot.IsSound s := by
  have hname_le := h.name_le
  have hequals_lt := h.equals_lt
  refine ⟨h.start ▸ h.name_lt, ?_, ?_, ?_, h.quote, ?_⟩
  · rw [h.value]
    show slot.name.stop < place.opening + 1
    omega
  · rw [h.value]
    exact h.opening_lt
  · rw [h.value]
    exact Source.lt_size_of_byte? h.closing
  · rw [h.value]
    exact h.inside

/-- **Order.** Slots that stand one after the other take at least four bytes each, and they lie one
    behind the other. -/
theorem SlotsStandAt.inOrder (h : SlotsStandAt s blank i found places j) :
    i + 4 * found.length ≤ j ∧ j ≤ max i s.size ∧
    (∀ slot ∈ found, i ≤ slot.name.start ∧ slot.IsSound s) ∧
      found.Pairwise fun slot later => slot.value.stop < later.name.start := by
  induction h with
  | nil i => exact ⟨Nat.le_refl i, Nat.le_max_left _ _, List.forall_mem_nil _, .nil⟩
  | @cons i j slot place found places le_start blanks first _ ih =>
    -- The other slots begin behind the closing quote of the first one.
    obtain ⟨hlength, hsize, hsound, horder⟩ := ih
    have hname_lt := first.name_lt
    have hname_le := first.name_le
    have hequals_lt := first.equals_lt
    have hopening_lt := first.opening_lt
    have hclosing := Source.lt_size_of_byte? first.closing
    refine ⟨?_, by omega, ?_, ?_⟩
    · rw [List.length_cons]
      omega
    · refine List.forall_mem_cons.mpr
        ⟨⟨first.start ▸ le_start, first.isSound⟩, fun later hlater => ?_⟩
      have hbehind := (hsound later hlater).1
      exact ⟨by omega, (hsound later hlater).2⟩
    · refine List.pairwise_cons.mpr ⟨fun later hlater => ?_, horder⟩
      rw [first.value]
      exact (hsound later hlater).1

/-! ### What the lexer reads -/

/-- **Slots.** Whatever text stands before them, attributes that have been laid out are read back,
    all of them and in order, if `/` or `>` follows: their slots are the places of the names and
    values, and what stands there are the names and values. From any offset on, what is read from
    any text are slots in the text, one behind the other; since each of them takes at least four
    bytes, there are no more than fit. -/
theorem slots_as_laid_out :
    (∀ (head : String) (written : List WrittenAttribute) (trailing : Spacing) (rest : String),
      rest.toList.head? = some '/' ∨ rest.toList.head? = some '>' →
      let s := Source.ofText (head ++ layOut written ++ trailing.text ++ rest)
      let found := slots s head.utf8ByteSize
      found = slotsAt head.utf8ByteSize written ∧
        found.map (Slot.parts s) = written.map fun a => (some a.name, a.quote, some a.value)) ∧
    ∀ (s : Source) (i : Nat),
      4 * (slots s i).length ≤ s.size - i ∧
      (∀ slot ∈ slots s i, i ≤ slot.name.start ∧ slot.IsSound s) ∧
        (slots s i).Pairwise fun slot later => slot.value.stop < later.name.start := by
  refine ⟨?_, ?_⟩
  · intro head written trailing rest hrest s found
    have htext : s.HasText (layOut written ++ trailing.text ++ rest) head.utf8ByteSize :=
      ⟨head, "", by simp [s, Source.ofText, String.append_assoc], rfl⟩
    obtain ⟨hbefore, hend⟩ := htext.split
    obtain ⟨hwritten, htrailing⟩ := hbefore.split
    rw [String.utf8ByteSize_append, ← Nat.add_assoc] at hend
    -- What follows ends the tag, so that the lexer stops behind the trailing white space.
    obtain ⟨b, hclose, hb⟩ : ∃ b, s.byte? _ = some b ∧ (b = byteOf '/' ∨ b = byteOf '>') := by
      rcases hrest with hslash | hgreater
      · exact ⟨_, hend.byte?_head hslash (by decide), .inl rfl⟩
      · exact ⟨_, hend.byte?_head hgreater (by decide), .inr rfl⟩
    have hfound : found = slotsAt head.utf8ByteSize written :=
      Slot.readAll_of_standAt (slotsAt_standAt hwritten) (Nat.le_add_right _ _)
        (htrailing.allBytes trailing.isAsciiBlank) hclose hb []
    exact ⟨hfound, hfound ▸ map_parts_slotsAt hwritten⟩
  · intro s i
    obtain ⟨places, j, hstand⟩ := slots_standAt s i
    obtain ⟨hlength, hsize, hsound, horder⟩ := hstand.inOrder
    exact ⟨by omega, hsound, horder⟩

/-- Attributes with more white space than usual and with none, with values that look like the end of
    a tag or are empty, and with a name that is not ASCII. -/
theorem slots_as_laid_out_unspaced :
    let narrow : Spacing := ⟨"", by decide⟩
    let wide : Spacing := ⟨" \n\t", by decide⟩
    let first : WrittenAttribute :=
      ⟨wide, "k", wide, wide, '\'', "a=\"/>", by decide, by decide, .inr rfl, by decide⟩
    let second : WrittenAttribute :=
      ⟨narrow, "é:j", narrow, narrow, '"', "", by decide, by decide, .inl rfl, by decide⟩
    let text := "<é" ++ layOut [first, second] ++ wide.text ++ "/>"
    "/>".toList.head? = some '/' ∧ text = "<é \n\tk \n\t= \n\t'a=\"/>'é:j=\"\" \n\t/>" ∧
      slots (.ofText text) 3 = [⟨⟨6, 7⟩, 39, ⟨15, 20⟩⟩, ⟨⟨21, 25⟩, 34, ⟨27, 27⟩⟩] ∧
      (slots (.ofText text) 3).map (Slot.parts (.ofText text))
        = [(some "k", '\'', some "a=\"/>"), (some "é:j", '"', some "")] := by
  intro narrow wide first second text
  have hend : "/>".toList.head? = some '/' := by decide
  obtain ⟨hslots, hparts⟩ := slots_as_laid_out.1 "<é" [first, second] wide "/>" (.inl hend)
  exact ⟨hend, by decide +kernel, hslots.trans (by decide +kernel), hparts⟩

end XmlHighlight
