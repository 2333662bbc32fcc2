import XmlHighlight.Proofs.ScanFailures
import XmlHighlight.Proofs.TagsAsWritten

/-!
# Spans of values — where the values of attributes are painted

The scanner is told what the value of an attribute means, and has to find out how much of the text
it takes up. It finds the closing quote, with one exception: a value that is longer than its text
and yet stands there as it is, with a quote behind it, is painted up to that quote. Such a value
comes out of an entity.

* `TagAttribute.overruns`, `TagAttribute.valueSpan` — the exception, and what is painted of a value;
* `valueLength_eq_overruns` — the length of a value;
* `filter_attributesSpans` — the values of the attributes in a tag are painted one after the other;
* `StartTagStandsAt.slots_unique` — a tag has its slots from the text alone;
* `values_painted` — what is painted of the values in a document.
-/

namespace XmlHighlight

open Xml

variable (s : Source)

/-- The value of an attribute is longer than what stands between its quotes, and it stands in the
    text as it is, with a quote behind it. -/
def TagAttribute.overruns (attr : TagAttribute) (read : AttributeMarkup) : Bool :=
  decide (read.value.stop - read.value.start < attr.value.utf8ByteSize)
    && isQuotedAt s attr.value attr.quote read.value.start

/-- What is painted of a value: all that stands between the quotes, unless the value overruns
    them. -/
def TagAttribute.valueSpan (attr : TagAttribute) (read : AttributeMarkup) : List Span :=
  span read.value.start
    (if attr.overruns s read then attr.value.utf8ByteSize else read.value.stop - read.value.start)
    .attributeValue

/-- The spans of a token in the class of values. -/
def valueSpans (token : Token) : List Span :=
  (tokenSpans s (.build s) token).spans.filter (·.style == .attributeValue)

variable {s} {i j stop : Nat} {values : List (Nat × String)}

/-! ### One attribute -/

theorem filter_span_value (start length : Nat) :
    (span start length .attributeValue).filter (·.style == .attributeValue)
      = span start length .attributeValue := by
  unfold span
  split <;> rfl

theorem filter_span_of_ne (start length : Nat) {style : StyleClass} (h : style ≠ .attributeValue) :
    (span start length style).filter (·.style == .attributeValue) = [] := by
  unfold span
  split
  · simp [h]
  · rfl

/-- The length of a value is the distance between the quotes, unless the value overruns them. -/
theorem valueLength_eq_overruns {slot : Slot} {place : AttributePlace} {read : AttributeMarkup}
    (h : slot.StandsAt s isSpace place) (hread : slot.Holds read) {attr : TagAttribute}
    (hquote : byteOf attr.quote = slot.quote) (hq : attr.quote = '"' ∨ attr.quote = '\'') :
    valueLength s (place.opening + 1) attr.value attr.quote
      = if attr.overruns s read then attr.value.utf8ByteSize
        else read.value.stop - read.value.start := by
  have hvalue : read.value = ⟨place.opening + 1, place.closing⟩ := by rw [hread.2, h.value]
  have hinside := h.inside
  have hclosing := h.closing
  rw [← hquote] at hinside hclosing
  have hstart := Source.isBoundary_succ h.opening (lt_of_isQuote h.quote)
  rw [valueLength_eq_ite attr.value hq hstart h.opening_lt hinside hclosing, TagAttribute.overruns,
    hvalue]
  dsimp only
  -- Only a value that stands there verbatim can be longer than its slot.
  by_cases hquoted : isQuotedAt s attr.value attr.quote (place.opening + 1) = true
  · rw [if_pos hquoted, hquoted, Bool.and_true]
    by_cases hlonger : place.closing - (place.opening + 1) < attr.value.utf8ByteSize
    · rw [if_pos (decide_eq_true hlonger)]
    · rw [if_neg (by simpa using hlonger)]
      exact size_of_isQuotedAt hq hinside (Nat.not_lt.mp hlonger) hquoted
  · rw [if_neg hquoted, if_neg (by simp [hquoted])]

/-- The position of an offset in the text is where a cursor stands on it. -/
theorem Source.posOf_eq (h : i ≤ s.size) : s.posOf i = (LineCursor.atOffset s i).pos := by
  rw [posOf, Nat.min_eq_left h]

/-- **Step.** Of the spans of an attribute one is for the value. -/
theorem filter_attributeSpans (values : List (Nat × String)) (hsize : s.size < UInt64.size)
    {slot : Slot}
    {place : AttributePlace} {read : AttributeMarkup} (h : slot.StandsAt s isSpace place)
    (hstart : s.isBoundary place.start = true) (hread : slot.Holds read) {attr : TagAttribute}
    (hattr : attr = slotAttribute s values slot (s.posOf slot.name.start)) :
    (attributeSpans s (.build s) attr).spans.filter (·.style == .attributeValue)
      = attr.valueSpan s read ∧
      ∃ last, (attributeSpans s (.build s) attr).result = .ok last := by
  obtain ⟨hq, hbyte⟩ := ofNat_quote h.quote
  have hquote : attr.quote = Char.ofNat slot.quote.toNat := by rw [hattr, slotAttribute]
  rw [← hquote] at hq hbyte
  have hlength := valueLength_eq_overruns h hread hbyte hq
  have hvalue : read.value.start = place.opening + 1 := by rw [hread.2, h.value]
  rw [h.start, Source.posOf_eq (Source.le_size_of_isBoundary hstart)] at hattr
  rw [attributeSpans_of_slot hsize (h.mono fun _ => isAsciiBlank_of_isSpace) hstart hattr, hlength]
  refine ⟨?_, _, rfl⟩
  dsimp only
  rw [List.filter_append, List.filter_append, filter_span_of_ne _ _ (by decide), filter_span_value,
    TagAttribute.valueSpan, hvalue]
  rfl

/-! ### One tag -/

/-- **Run.** The values in a tag are painted one after the other. -/
theorem filter_attributesSpans (values : List (Nat × String)) (hsize : s.size < UInt64.size)
    {found : List Slot} {places : List AttributePlace} {read : List AttributeMarkup}
    (h : SlotsStandAt s isSpace i found places j) (hi : s.isBoundary i = true)
    (hread : List.Forall₂ Slot.Holds found read) (first : Nat) :
    let attrs := found.map fun slot => slotAttribute s values slot (s.posOf slot.name.start)
    (attributesSpans s (.build s) first attrs).spans.filter (·.style == .attributeValue)
        = (attrs.zipWith (TagAttribute.valueSpan s) read).flatten ∧
      ∃ last, (attributesSpans s (.build s) first attrs).result = .ok last := by
  induction h generalizing read first with
  | nil i =>
    cases hread
    exact ⟨rfl, first, rfl⟩
  | @cons i j slot place found places le_start blanks standing _ ih =>
    cases hread with
    | @cons _ attr _ rest hslot hrest =>
      have hstart := blanks.isBoundary_right (fun _ => lt_of_isSpace) le_start hi
      obtain ⟨hvalue, last, hlast⟩ := filter_attributeSpans values hsize standing hstart hslot rfl
      obtain ⟨hvalues, hend⟩ :=
        ih (Source.isBoundary_succ standing.closing (lt_of_isQuote standing.quote)) hrest last
      intro attrs
      have hattrs : attributesSpans s (.build s) first attrs
          = ⟨(attributeSpans s (.build s)
            (slotAttribute s values slot (s.posOf slot.name.start))).spans
              ++ (attributesSpans s (.build s) last
                (found.map fun slot =>
                  slotAttribute s values slot (s.posOf slot.name.start))).spans,
            (attributesSpans s (.build s) last
              (found.map fun slot =>
                slotAttribute s values slot (s.posOf slot.name.start))).result⟩ := by
        show (attributeSpans s (.build s) (slotAttribute s values slot (s.posOf slot.name.start))
          >>= _) = _
        cases hspans : attributeSpans s (.build s)
          (slotAttribute s values slot (s.posOf slot.name.start)) with
        | mk spans result =>
          rw [hspans] at hlast
          cases hlast
          rfl
      rw [hattrs]
      refine ⟨?_, hend⟩
      rw [List.filter_append, hvalue, hvalues]
      rfl

/-- Of the spans of a start tag those in the class of values belong to its attributes. -/
theorem valueSpans_startTag {name : String} {pos : TextPos} {attrs : List TagAttribute}
    {empty : Bool}
    {last : Nat} (offset : (LineIndex.build s).offsetAt pos = .ok (i + 1))
    (hattrs : (attributesSpans s (.build s) (i + 1 + name.utf8ByteSize) attrs).result = .ok last) :
    valueSpans s (.startTag name pos attrs empty)
      = (attributesSpans s (.build s) (i + 1 + name.utf8ByteSize) attrs).spans.filter
        (·.style == .attributeValue) := by
  have hnot : i + 1 ≠ 0 := by omega
  have hdelimiter : StyleClass.delimiter ≠ .attributeValue := by decide
  have hname : StyleClass.elementName ≠ .attributeValue := by decide
  cases hspans : attributesSpans s (.build s) (i + 1 + name.utf8ByteSize) attrs with
  | mk spans result =>
    rw [hspans] at hattrs
    cases hattrs
    simp only [valueSpans, tokenSpans, offsetOf_eq offset, Painting.bind_ok, if_neg hnot, paint,
      hspans, List.nil_append, List.filter_append, filter_span_of_ne _ _ hdelimiter,
      filter_span_of_ne _ _ hname]
    -- The end of the tag is a delimiter, if it is found.
    rw [List.append_right_eq_self, seek]
    split
    · rw [Painting.pure_eq, Painting.bind_ok]
      dsimp only
      split
      all_goals
        rw [List.nil_append]
        dsimp only
        exact filter_span_of_ne _ _ hdelimiter
    · rfl

/-! ### Values that fit -/

/-- A tag has its slots from the text alone: its name ends where the bytes of a name end. -/
theorem StartTagStandsAt.slots_unique {stop' nameEnd nameEnd' j' : Nat} {rest rest' : TagRest}
    {empty empty' : Bool} (h : StartTagStandsAt s stop i nameEnd rest empty j)
    (h' : StartTagStandsAt s stop' i nameEnd' rest' empty' j') : rest.slots = rest'.slots := by
  have hend : ∀ {stop nameEnd j : Nat} {rest : TagRest} {empty : Bool},
      StartTagStandsAt s stop i nameEnd rest empty j →
        s.skipWhile isSlotNameByte s.size (i + 1) = nameEnd := by
    intro stop nameEnd j rest empty h
    obtain ⟨b, hb, hends⟩ := h.rest.byte?_nameEnd
    refine nameEnd_eq (allBytes_of_nameChars h.name.chars) (Nat.le_of_lt h.name.lt) hb ?_
    rcases hends with hspace | rfl | rfl
    · rw [isSlotNameByte, isAsciiBlank_of_isSpace hspace]
      rfl
    · decide
    · decide
  rw [← slots_of_standAt h.rest, ← slots_of_standAt h'.rest, ← hend h, ← hend h']

/-- What a document means by the attributes of an element is not longer than what stands in its
    tag. -/
def FitsSlots (s : Source) (n : Node) : Prop :=
  ∀ values, n.kind = .element values → ∃ (stop nameEnd j : Nat) (rest : TagRest) (empty : Bool),
    StartTagStandsAt s stop n.extent.start nameEnd rest empty j ∧ ValuesFit values rest.slots

/-- So it is with all nodes of a document that declares no entities. -/
theorem NodesStandAt.fitsSlots {nodes : List Node} (h : NodesStandAt s i nodes j) :
    ∀ n ∈ nodes, n.Everywhere (FitsSlots s) := by
  induction h with
  | nil => exact List.forall_mem_nil _
  | unpainted kind_eq _ ih =>
    refine List.forall_mem_cons.mpr ⟨.node (fun values hkind => ?_) (List.forall_mem_nil _), ih⟩
    rcases kind_eq with rfl | rfl <;> cases hkind
  | comment _ _ _ _ ih =>
    refine List.forall_mem_cons.mpr ⟨.node (fun values hkind => ?_) (List.forall_mem_nil _), ih⟩
    cases hkind
  | empty _ opened fit _ ih =>
    refine List.forall_mem_cons.mpr ⟨.node (fun values hkind => ?_) (List.forall_mem_nil _), ih⟩
    cases hkind
    exact ⟨_, _, _, _, _, opened, fit⟩
  | element _ opened fit _ _ _ _ ihchildren ih =>
    refine List.forall_mem_cons.mpr ⟨.node (fun values hkind => ?_) ihchildren, ih⟩
    cases hkind
    exact ⟨_, _, _, _, _, opened, fit⟩

/-- Without entities every value fits into its slot. -/
theorem parse_fitsSlots {root : Node} (hparse : parse s = .ok root)
    (hentities : DeclaresNoEntities s) :
    root.Everywhere (FitsSlots s) := by
  obtain ⟨⟨prolog, i⟩, hprolog, -⟩ := bind_eq_ok.mp hparse
  obtain ⟨nodes, rfl, hnodes⟩ := parse_standsAt hparse hprolog (hentities _ hprolog)
  exact .node (fun values hkind => by cases hkind) hnodes.fitsSlots

/-- A value that fits into its slot does not overrun it. -/
theorem overruns_of_valuesFit {found : List Slot} {read : List AttributeMarkup}
    (hfit : ValuesFit values found)
    (hread : List.Forall₂ Slot.Holds found read) :
    List.Forall₂ (fun attr read => attr.overruns s read = false)
      (found.map fun slot => slotAttribute s values slot (s.posOf slot.name.start)) read := by
  induction hread with
  | nil => exact .nil
  | @cons slot _ _ _ first _ ih =>
    obtain ⟨hslot, hrest⟩ := List.forall_mem_cons.mp hfit
    refine .cons ?_ (ih hrest)
    have hle := utf8ByteSize_slotAttribute (s := s) hslot (s.posOf slot.name.start)
    rw [← first.2] at hle
    rw [TagAttribute.overruns, decide_eq_false (Nat.not_lt.mpr hle), Bool.false_and]

/-! ### The values of a document -/

/-- Where a walk enters an element, the token has the attributes of the start tag, or none of them;
    its spans in the class of values are painted one after the other, each over all that stands
    between the quotes unless the value overruns them. No value does so in a document that declares
    no entities. -/
def PaintsValues (s : Source) (place : Location) : Prop :=
  ∃ tag : StartTag, tag.IsReadAt s place.node.extent.start ∧ tag.IsComplete ∧
    ∃ name pos attrs empty read, tokenOf? s (.enter place) = some (.startTag name pos attrs empty) ∧
      (read = tag.attributes ∨ untilBlank (tag.written s) ≠ tag.written s ∧ read = []) ∧
      List.Forall₂ (TagAttribute.Repeats s) attrs read ∧
      valueSpans s (.startTag name pos attrs empty)
      = (attrs.zipWith (TagAttribute.valueSpan s) read).flatten ∧
      (DeclaresNoEntities s →
        List.Forall₂ (fun attr read => attr.overruns s read = false) attrs read)

/-- The values of an element are painted in its start tag. -/
theorem paintsValues_of_isReadAt (hsize : s.size < UInt64.size) {later children : List Node}
    {above : List (Node × List Node)} {extent : Extent} {tag : StartTag}
    (hread : tag.IsReadAt s extent.start)
    (hending : tag.IsComplete)
    (hfits : DeclaresNoEntities s → FitsSlots s (.node (.element values) extent children)) :
    PaintsValues s ⟨.node (.element values) extent children, later, above⟩ := by
  obtain ⟨stop, rest, found, hslots, htag, hfound, htoken⟩ := startTagOf_eq values hread hending
  obtain ⟨b, hb, hends⟩ := htag.rest.byte?_nameEnd
  have hnameStop := Source.isBoundary_of_ascii hb (ends_qualifiedName hends).1
  have hstart := htag.name.chars.isBoundary_left htag.name.lt
  have hoffset := LineIndex.offsetAt_atOffset s (Source.le_size_of_isBoundary hstart) hsize
  obtain ⟨-, hname, -⟩ := hread.standsAt hending
  rw [hname, Source.posOf_eq (Source.le_size_of_isBoundary hstart)] at htoken
  have hreported := congrArg some htoken
  -- A name that was cut short leaves the tag without attributes.
  rcases hfound with ⟨-, rfl⟩ | ⟨hcut, rfl⟩
  · obtain ⟨hvalues, last, hlast⟩ := filter_attributesSpans values hsize htag.rest.slots hnameStop
      hslots (extent.start + 1 + (untilBlank (tag.written s)).utf8ByteSize)
    refine ⟨tag, hread, hending, _, _, _, _, tag.attributes, hreported, .inl rfl, ?_, ?_,
      fun hentities => ?_⟩
    · exact slotAttributes_repeat values htag.rest.slots.exists_place hslots
    · rw [valueSpans_startTag hoffset hlast, hvalues]
    · obtain ⟨_, _, _, rest', _, htag', hfit⟩ := hfits hentities values rfl
      rw [← htag.slots_unique htag'] at hfit
      exact overruns_of_valuesFit hfit hslots
  · refine ⟨tag, hread, hending, _, _, _, _, [], hreported, .inr ⟨hcut, rfl⟩, .nil, ?_,
      fun _ => .nil⟩
    rw [valueSpans_startTag hoffset rfl]
    rfl

/-- **Values.** In every document the values of attributes are painted as they stand between their
    quotes, unless they overrun them. -/
theorem values_painted {root : Node} (hsize : s.size < UInt64.size) (hparse : parse s = .ok root) :
    ∀ place, Step.enter place ∈ visitSiblings [] [root] → place.node.isElement = true →
      PaintsValues s place := by
  rintro ⟨⟨kind, extent, children⟩, later, above⟩ hplace helement
  have htags := (parse_hasTags hparse).of_mem_walk _ hplace
  have hfits : DeclaresNoEntities s → FitsSlots s (.node kind extent children) := fun hentities =>
    (parse_fitsSlots hparse hentities).of_mem_walk _ hplace
  cases kind with
  | element values =>
    obtain ⟨tag, hread, hending, -⟩ := (HasTags.asWritten htags helement).1
    exact paintsValues_of_isReadAt hsize hread hending hfits
  | document | text | comment | instruction => cases helement

/-- The values of this tag have an entity in them, and a quote of the other kind. The first of them
    has seven characters, but ten stand between its quotes and are painted. -/
theorem values_painted_escaped :
    let s := Source.ofText "<a x=\"1 &lt; '2'\" xmlns:p='u'/>"
    let token := Token.startTag "a" ⟨1, 2⟩
      [⟨"x", "1 < '2'", '"', ⟨1, 4⟩⟩, ⟨"xmlns:p", "u", '\'', ⟨1, 19⟩⟩] true
    s.size < UInt64.size ∧ ∃ root place, parse s = .ok root ∧
      Step.enter place ∈ visitSiblings [] [root] ∧ PaintsValues s place ∧
      tokenOf? s (.enter place) = some token ∧
      valueSpans s token = [⟨6, 10, .attributeValue⟩, ⟨27, 1, .attributeValue⟩] := by
  intro s token
  have hsize : s.size < UInt64.size := by decide +kernel
  have hread : (tokens s).toOption = some #[token] := by decide +kernel
  obtain ⟨root, hparse, htokens⟩ := exists_parse_of_tokens hread
  have hmem : token ∈ (tokensOf s root).toList := by
    rw [htokens]
    exact List.mem_cons_self
  obtain ⟨place, hplace, helement, htoken⟩ :=
    exists_enter_of_mem_tokensOf hmem
  exact ⟨hsize, root, place, hparse, hplace, values_painted hsize hparse place hplace helement,
    htoken, by decide +kernel⟩

/-- Here the entity has a value that stands behind the quote: it is painted over the end of the
    slot, which ends at 51, up to 57, where the next slot ends as well. -/
theorem value_overruns_slot :
    let s := Source.ofText "<!DOCTYPE a [<!ENTITY v '&#38;v;\" y=\"1'>]><a x=\"&v;\" y=\"1\"/>"
    (((documentPlan s (.build s) {}).run never).spans.filter (·.style == .attributeValue)).map
        (fun span => (span.start, span.length)) = [(48, 9), (56, 1)] ∧
      (readStartTag s s.size 42).toOption.map (fun r => r.value.attributes.map (·.value))
        = some [⟨48, 51⟩, ⟨56, 57⟩] := by
  decide +kernel

end XmlHighlight
