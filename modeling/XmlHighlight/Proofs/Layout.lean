import XmlHighlight.Proofs.Characters
import XmlHighlight.Proofs.Placement
import XmlHighlight.Token.Slot
import XmlHighlight.Xml.Markup

/-!
# Layout — how markup stands in a text

What a reader accepts has a fixed shape. The shape is written down as relations between a piece of
markup and offsets in the text, and each reader that answers is shown to have found its piece in
that shape.

* `NameStandsAt`, `Slot.StandsAt`, `SlotsStandAt`, `TagRest.StandsAt` — the shape of what is in a
  tag;
* `StartTagStandsAt`, `EndTagStandsAt` — the shape of a tag;
* `readQName_standsAt`, `readAttribute_standsAt`, `readAttributes_standAt` — what is read has its
  shape.
-/

namespace XmlHighlight

open Xml

/-! ### Steps of a reader -/

/-- A reader that does one thing after another answers if both of them do. -/
theorem bind_eq_ok {ε α β : Type} {x : Except ε α} {f : α → Except ε β} {b : β} :
    x >>= f = .ok b ↔ ∃ a, x = .ok a ∧ f a = .ok b := by
  cases x with
  | error e => simp [bind, Except.bind]
  | ok a => simp [bind, Except.bind]

variable {s : Source} {stop i j : Nat}

/-- The byte at an offset is read only before the stop. -/
theorem byteIn?_eq_some_iff {b : UInt8} :
    s.byteIn? stop i = some b ↔ i < stop ∧ s.byte? i = some b := by
  unfold Source.byteIn?
  split
  · next h => simp [h]
  · next h => simp [h]

/-- A byte that was expected stands there. -/
theorem byte?_of_expectByte {b : UInt8} {u : Unit} (h : expectByte s b stop i = .ok u) :
    i < stop ∧ s.byte? i = some b := by
  unfold expectByte at h
  split at h
  · cases h
  · next found hfound =>
    split at h
    · next hb =>
      rw [beq_iff_eq] at hb
      exact byteIn?_eq_some_iff.mp (hb ▸ hfound)
    · cases h

/-- A quote that was expected stands there. -/
theorem byte?_of_expectQuote {quote : UInt8} (h : expectQuote s stop i = .ok quote) :
    s.byte? i = some quote ∧ isQuote quote = true := by
  unfold expectQuote at h
  split at h
  · cases h
  · next found hfound =>
    split at h
    · next hquote =>
      cases h
      exact ⟨(byteIn?_eq_some_iff.mp hfound).2, hquote⟩
    · cases h

/-! ### Names -/

variable (s)

/-- A name stands from offset `i` up to offset `j`, and does not go on behind it. -/
structure NameStandsAt (stop i j : Nat) : Prop where
  chars : s.AllChars isNameChar i j
  lt : i < j
  le_stop : j ≤ stop
  ends : ∀ c, s.char? stop j = some c → isNameChar c = false

variable {s}

theorem allChars_ncNameEnd (stop i : Nat) : s.AllChars isNameChar i (ncNameEnd s stop i) :=
  (s.allChars_skipChars _ stop i).mono fun c hc => by
    rw [Bool.and_eq_true] at hc
    exact hc.1

/-- A name without a colon ends at a colon, or at a character that no name has. -/
theorem ncNameEnd_stops {c : Char} (h : s.char? stop (ncNameEnd s stop i) = some c)
    (hcolon : s.byteIn? stop (ncNameEnd s stop i) ≠ some colon) : isNameChar c = false := by
  have hstops := Source.skipChars_stops h
  rw [Bool.and_eq_false_iff] at hstops
  rcases hstops with hname | hc
  · exact hname
  · obtain ⟨hlt, hchar⟩ := Source.char?_eq_some_iff.mp h
    have hbyte := Source.byte?_of_decode hchar c.utf8Size_pos
    obtain rfl : c = ':' := by simpa using hc
    exact absurd (byteIn?_eq_some_iff.mpr ⟨hlt, hbyte⟩) hcolon

theorem startsName_lt {i j : Nat} (h : startsName s i j = true) : i < j := by
  rw [startsName, Option.any_eq_true] at h
  obtain ⟨c, hc, -⟩ := h
  exact (Source.char?_eq_some_iff.mp hc).1

theorem ncNameEnd_le (hstop : s.isBoundary stop = true) (h : i ≤ stop) :
    ncNameEnd s stop i ≤ stop :=
  s.skipChars_le _ hstop h

/-- A name stands where it was read. -/
theorem readQName_standsAt (hstop : s.isBoundary stop = true) {r : Found i QName}
    (h : readQName s stop i = .ok r) : NameStandsAt s stop i r.next := by
  unfold readQName at h
  dsimp only at h
  split at h
  · next hcolon =>
    rw [beq_iff_eq] at hcolon
    obtain ⟨hlt, hbyte⟩ := byteIn?_eq_some_iff.mp hcolon
    split at h
    · cases h
    · next hsecond =>
      split at h
      · cases h
      · split at h
        · next hlocal =>
          cases h
          have hdecode := Source.decode_of_ascii hbyte (by decide)
          refine ⟨?_, ?_, ncNameEnd_le hstop hlt, ?_⟩
          · refine (allChars_ncNameEnd stop i).append (.cons hdecode (by decide) ?_)
            exact allChars_ncNameEnd stop _
          · have := startsName_lt hlocal
            have := (allChars_ncNameEnd (s := s) stop i).le
            show i < ncNameEnd s stop (ncNameEnd s stop i + 1)
            omega
          · intro c hc
            exact ncNameEnd_stops hc (by simpa using hsecond)
        · cases h
  · next hcolon =>
    split at h
    · next hname =>
      cases h
      have hlt := startsName_lt hname
      refine ⟨allChars_ncNameEnd stop i, hlt, ?_, ?_⟩
      · by_cases hi : i ≤ stop
        · exact ncNameEnd_le hstop hi
        · -- A run that begins behind its limit is empty.
          rw [ncNameEnd, Source.skipChars, if_neg (by omega)] at hlt
          exact absurd hlt (Nat.lt_irrefl i)
      · intro c hc
        exact ncNameEnd_stops hc (by simpa using hcolon)
    · cases h

/-- The bytes of a name are bytes that a slot lexer takes for the bytes of a name. -/
theorem allBytes_of_nameChars (h : s.AllChars isNameChar i j) : s.AllBytes isSlotNameByte i j := by
  refine h.allBytes fun b hb => ?_
  simp only [isSlotNameByte, isAsciiBlank, Bool.and_eq_false_iff, Bool.not_eq_false',
    bne_eq_false_iff_eq, Bool.or_eq_true, beq_iff_eq] at hb
  rcases hb with ((((((rfl | rfl) | rfl) | rfl) | rfl) | rfl) | rfl) | rfl <;> decide

/-! ### Attributes -/

variable (s)

/-- A slot stands at a place: a name, `=` with blank bytes around it, and a value in quotes that
    does not contain its quote. -/
structure Slot.StandsAt (blank : UInt8 → Bool) (slot : Slot) (place : AttributePlace) : Prop where
  start : slot.name.start = place.start
  name : s.AllBytes isSlotNameByte place.start slot.name.stop
  name_lt : place.start < slot.name.stop
  name_le : slot.name.stop ≤ place.equals
  before : s.AllBytes blank slot.name.stop place.equals
  equals : s.byte? place.equals = some (byteOf '=')
  equals_lt : place.equals < place.opening
  after : s.AllBytes blank (place.equals + 1) place.opening
  quote : isQuote slot.quote = true
  opening : s.byte? place.opening = some slot.quote
  value : slot.value = ⟨place.opening + 1, place.closing⟩
  opening_lt : place.opening < place.closing
  inside : s.AllBytes (· != slot.quote) (place.opening + 1) place.closing
  closing : s.byte? place.closing = some slot.quote

/-- Slots stand one after the other from offset `i` up to offset `j`, with blank bytes before each
    of them. -/
inductive SlotsStandAt (blank : UInt8 → Bool) : Nat → List Slot → List AttributePlace → Nat →
    Prop where
  | nil (i : Nat) : SlotsStandAt blank i [] [] i
  | cons {i j : Nat} {slot : Slot} {place : AttributePlace} {slots : List Slot}
      {places : List AttributePlace} (le_start : i ≤ place.start)
      (blanks : s.AllBytes blank i place.start) (first : slot.StandsAt s blank place)
      (rest : SlotsStandAt blank (place.closing + 1) slots places j) :
      SlotsStandAt blank i (slot :: slots) (place :: places) j

/-- What stands in a start tag behind its name: slots, the offset after the last of them, and the
    offset of the delimiter that ends the tag. -/
structure TagRest where
  slots : List Slot
  places : List AttributePlace
  last : Nat
  close : Nat

/-- The rest of a tag stands from offset `i` up to offset `j`. The tag ends with `/>` if it is
    empty, and with `>` if it is not. -/
structure TagRest.StandsAt (rest : TagRest) (empty : Bool) (i j : Nat) : Prop where
  slots : SlotsStandAt s isSpace i rest.slots rest.places rest.last
  apart : ∀ place ∈ rest.places, i < place.start
  last_le : rest.last ≤ rest.close
  spaces : s.AllBytes isSpace rest.last rest.close
  closing : if empty then s.byte? rest.close = some (byteOf '/') ∧
      s.byte? (rest.close + 1) = some (byteOf '>')
    else s.byte? rest.close = some (byteOf '>')
  stop_eq : j = rest.close + if empty then 2 else 1

/-- A slot is the place of an attribute that has been read. -/
def Slot.Holds (slot : Slot) (attr : AttributeMarkup) : Prop :=
  attr.nameExtent = slot.name ∧ attr.value = slot.value

variable {s}

theorem allBytes_skipSpaces (stop i : Nat) : s.AllBytes isSpace i (skipSpaces s stop i) :=
  Source.allBytes_skipWhile isSpace stop i

/-- The equals sign and the opening quote stand where they were read, among blanks. -/
theorem readEquals_standsAt {r : Found i UInt8} (h : readEquals s stop i = .ok r) :
    ∃ equals opening, i ≤ equals ∧ s.AllBytes isSpace i equals ∧
      s.byte? equals = some (byteOf '=') ∧ equals < opening ∧
      s.AllBytes isSpace (equals + 1) opening ∧ s.byte? opening = some r.value ∧
      isQuote r.value = true ∧ r.next = opening + 1 := by
  rw [readEquals, bind_eq_ok] at h
  obtain ⟨_, hequals, h⟩ := h
  rw [bind_eq_ok] at h
  obtain ⟨quote, hquote, h⟩ := h
  cases h
  obtain ⟨hopening, hisQuote⟩ := byte?_of_expectQuote hquote
  exact ⟨skipSpaces s stop i, skipSpaces s stop (skipSpaces s stop i + 1), le_skipSpaces s stop i,
    allBytes_skipSpaces stop i, (byte?_of_expectByte hequals).2, le_skipSpaces s stop _,
    allBytes_skipSpaces stop _, hopening, hisQuote, rfl⟩

/-- An attribute stands where it was read, as a slot that holds it. -/
theorem readAttribute_standsAt (hstop : s.isBoundary stop = true) {r : Found i AttributeMarkup}
    (h : readAttribute s stop i = .ok r) :
    ∃ (slot : Slot) (place : AttributePlace), slot.Holds r.value ∧ slot.StandsAt s isSpace place ∧
      place.start = i ∧ r.next = place.closing + 1 ∧ r.next ≤ stop := by
  rw [readAttribute, bind_eq_ok] at h
  obtain ⟨⟨name, j, hj⟩, hname, h⟩ := h
  rw [bind_eq_ok] at h
  obtain ⟨⟨quote, k, hk⟩, hequals, h⟩ := h
  dsimp only at h
  split at h
  · cases h
  · rw [bind_eq_ok] at h
    obtain ⟨_, -, h⟩ := h
    rw [bind_eq_ok] at h
    obtain ⟨_, hclosing, h⟩ := h
    cases h
    obtain ⟨equals, opening, hle, hbefore, heq, hlt, hafter, hopening, hquote, rfl⟩ :=
      readEquals_standsAt hequals
    have hstands := readQName_standsAt hstop hname
    obtain ⟨hlt_stop, hbyte⟩ := byte?_of_expectByte hclosing
    have hopening_lt := s.le_skipWhile (fun b => b != quote && b != lessThan) stop (opening + 1)
    refine ⟨⟨⟨i, j⟩, quote, ⟨opening + 1, _⟩⟩, ⟨i, equals, opening, _⟩, ⟨rfl, rfl⟩, ?_, rfl, rfl,
      hlt_stop⟩
    refine ⟨rfl, allBytes_of_nameChars hstands.chars, hstands.lt, hle, hbefore, heq, hlt, hafter,
      hquote, hopening, rfl, hopening_lt, ?_, hbyte⟩
    -- The search for the closing quote stops at `<` as well, which is refused.
    refine (Source.allBytes_skipWhile _ stop _).mono fun b hb => ?_
    rw [Bool.and_eq_true] at hb
    exact hb.1

/-! ### Tags -/

/-- The rest of a tag whose end has been read has the shape of one. -/
theorem readAttributes_standAt (hstop : s.isBoundary stop = true)
    {done attrs : List AttributeMarkup}
    {ending : TagEnding} {k : Nat} (h : readAttributes s stop i done = (attrs, ending, k))
    (hending : ending = .opened ∨ ending = .selfClosed) :
    ∃ (read : List AttributeMarkup) (rest : TagRest), attrs = done.reverse ++ read ∧
      List.Forall₂ Slot.Holds rest.slots read ∧
      rest.StandsAt s (decide (ending = .selfClosed)) i k ∧ k ≤ stop := by
  fun_induction readAttributes s stop i done with
  -- The tag ends with `/>`.
  | case2 i done hi hle j hslash hend =>
    cases h
    obtain ⟨hlt, hgreater⟩ := byte?_of_expectByte hend
    refine ⟨[], ⟨[], [], i, j⟩, by simp, .nil, ?_, by omega⟩
    exact ⟨.nil i, List.forall_mem_nil _, hle, allBytes_skipSpaces stop i,
      ⟨(byteIn?_eq_some_iff.mp hslash).2, hgreater⟩, rfl⟩
  -- It ends with `>`.
  | case4 i done hi hle j hend =>
    cases h
    obtain ⟨hlt, hgreater⟩ := byteIn?_eq_some_iff.mp hend
    refine ⟨[], ⟨[], [], i, j⟩, by simp, .nil, ?_, hlt⟩
    exact ⟨.nil i, List.forall_mem_nil _, hle, allBytes_skipSpaces stop i, hgreater, rfl⟩
  -- An attribute stands before the rest, and white space before the attribute.
  | case7 i done hi hle j found hfound hslash hend hne attr k hk hattr ih =>
    obtain ⟨read, rest, rfl, hslots, hrest, hkstop⟩ := ih h
    obtain ⟨slot, place, hslot, hstands, hstart, hnext, -⟩ := readAttribute_standsAt hstop hattr
    dsimp only at hnext
    subst hnext
    refine ⟨attr :: read, ⟨slot :: rest.slots, place :: rest.places, rest.last, rest.close⟩,
      by simp, .cons hslot hslots, ?_, hkstop⟩
    refine ⟨.cons (by omega) ?_ hstands hrest.slots, ?_, hrest.last_le, hrest.spaces, hrest.closing,
      hrest.stop_eq⟩
    · rw [hstart]
      exact allBytes_skipSpaces stop i
    · rw [List.forall_mem_cons]
      refine ⟨by omega, fun place' hplace' => ?_⟩
      have := hrest.apart place' hplace'
      omega
  -- A tag that is faulty or cut off has neither of the two ends.
  | case1 | case3 | case5 | case6 | case8 =>
    simp only [Prod.mk.injEq] at h
    rcases hending with rfl | rfl <;> simp at h

variable (s)

/-- A start tag stands from offset `i` up to offset `j`; its name ends at offset `nameEnd`. -/
structure StartTagStandsAt (stop i nameEnd : Nat) (rest : TagRest) (empty : Bool) (j : Nat) :
    Prop where
  opening : s.byte? i = some (byteOf '<')
  name : NameStandsAt s stop (i + 1) nameEnd
  rest : rest.StandsAt s empty nameEnd j

/-- An end tag stands from offset `i` on: `</`, a name, white space, and `>` at offset `close`. -/
structure EndTagStandsAt (stop i nameEnd close : Nat) : Prop where
  opening : s.byte? i = some (byteOf '<')
  slash : s.byte? (i + 1) = some (byteOf '/')
  name : NameStandsAt s stop (i + 2) nameEnd
  name_le : nameEnd ≤ close
  spaces : s.AllBytes isSpace nameEnd close
  closing : s.byte? close = some (byteOf '>')

variable {s}

/-- A start tag stands where it was read, with a slot for each of its attributes. -/
theorem readStartTag_standsAt (hstop : s.isBoundary stop = true)
    (hi : s.byte? i = some (byteOf '<'))
    {r : Found i StartTag} (h : readStartTag s stop i = .ok r)
    (hending : r.value.ending = .opened ∨ r.value.ending = .selfClosed) :
    r.value.extent = ⟨i, r.next⟩ ∧ r.next ≤ stop ∧
      ∃ (nameEnd : Nat) (rest : TagRest), r.value.nameExtent = ⟨i + 1, nameEnd⟩ ∧
        List.Forall₂ Slot.Holds rest.slots r.value.attributes ∧
        StartTagStandsAt s stop i nameEnd rest (decide (r.value.ending = .selfClosed)) r.next := by
  rw [readStartTag, bind_eq_ok] at h
  obtain ⟨⟨name, j, hj⟩, hname, h⟩ := h
  cases h
  obtain ⟨read, rest, hread, hslots, hrest, hle⟩ := readAttributes_standAt hstop rfl hending
  rw [List.reverse_nil, List.nil_append] at hread
  refine ⟨rfl, hle, j, rest, rfl, ?_, hi, readQName_standsAt hstop hname, hrest⟩
  rw [← hread] at hslots
  exact hslots

/-- An end tag stands where it was read. -/
theorem readEndTag_standsAt (hstop : s.isBoundary stop = true) (hi : s.byte? i = some (byteOf '<'))
    (hslash : s.byte? (i + 1) = some (byteOf '/')) {r : Found i EndTag}
    (h : readEndTag s stop i = .ok r) :
    ∃ nameEnd close, r.value.nameExtent = ⟨i + 2, nameEnd⟩ ∧ r.value.extent = ⟨i, close + 1⟩ ∧
      r.next = close + 1 ∧ close < stop ∧ EndTagStandsAt s stop i nameEnd close := by
  rw [readEndTag, bind_eq_ok] at h
  obtain ⟨⟨name, j, hj⟩, hname, h⟩ := h
  rw [bind_eq_ok] at h
  obtain ⟨_, hclosing, h⟩ := h
  cases h
  obtain ⟨hlt, hbyte⟩ := byte?_of_expectByte hclosing
  exact ⟨j, skipSpaces s stop j, rfl, rfl, rfl, hlt, hi, hslash, readQName_standsAt hstop hname,
    le_skipSpaces s stop j, allBytes_skipSpaces stop j, hbyte⟩

/-! ### Comments -/

theorem le_of_expectText {word : String} {u : Unit} (h : expectText s word stop i = .ok u) :
    i + word.utf8ByteSize ≤ stop := by
  unfold expectText at h
  split at h
  · next hword =>
    rw [Source.startsWith, Bool.and_eq_true, decide_eq_true_iff] at hword
    exact hword.1
  · cases h

/-- A comment has room for its markers. -/
theorem readComment_extent {r : Found i Extent} (h : readComment s stop i = .ok r) :
    r.value = ⟨i, r.next⟩ ∧ i + 7 ≤ r.next ∧ r.next ≤ stop := by
  rw [readComment, bind_eq_ok] at h
  obtain ⟨⟨j, hj⟩, -, h⟩ := h
  rw [bind_eq_ok] at h
  obtain ⟨_, hend, h⟩ := h
  split at h
  · cases h
  · cases h
    have : j + 3 ≤ stop := le_of_expectText hend
    exact ⟨rfl, by dsimp only; omega, this⟩

end XmlHighlight
