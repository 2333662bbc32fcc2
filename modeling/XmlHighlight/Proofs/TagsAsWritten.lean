import XmlHighlight.Proofs.ElementTags
import XmlHighlight.Proofs.StepTokens

/-!
# Tags as written — what tokens say about tags

The names and attributes of a tag are found in the text a second time when its token is made. Names
end at a blank character then, and there are characters that are blank and may still belong to a
name. With such a name the token breaks off, and loses the attributes. In all other cases it repeats
the tag as it is written.

* `TagAttribute.Repeats`, `Token.RepeatsStart`, `Xml.EndTag.token` — tokens that repeat what is
  written;
* `startTagOf_eq`, `startTagOf_repeats`, `endTagOf?_eq` — the tokens of an element repeat its tags;
* `Xml.Node.Shows`, `Xml.Node.Shows.visited` — the nodes that a walk does not pass over;
* `tags_as_written` — what the tokens of a document repeat.
-/

namespace XmlHighlight

open Xml

variable (s : Source)

/-! ### Tokens and tags -/

/-- An attribute of a token repeats one of a tag: its name and the place of it, and the quotes
    around the value. -/
structure TagAttribute.Repeats (attr : TagAttribute) (read : AttributeMarkup) : Prop where
  name : attr.name = s.slice read.nameExtent.start read.nameExtent.stop
  pos : attr.pos = s.posOf read.nameExtent.start
  quote : attr.quote = '"' ∨ attr.quote = '\''
  opening : s.byte? (read.value.start - 1) = some (byteOf attr.quote)
  closing : s.byte? read.value.stop = some (byteOf attr.quote)

/-- A token repeats a start tag: its name, up to a blank character, and the place of it, and how the
    tag ends; and all attributes in order if there is no blank character in the name, and none if
    there is one. -/
def Token.RepeatsStart (token : Token) (tag : StartTag) : Prop :=
  ∃ attrs, token = .startTag (untilBlank (tag.written s)) (s.posOf tag.nameExtent.start) attrs
      (decide (tag.ending = .selfClosed)) ∧
    (untilBlank (tag.written s) = tag.written s →
      List.Forall₂ (TagAttribute.Repeats s) attrs tag.attributes) ∧
    (untilBlank (tag.written s) ≠ tag.written s → attrs = [])

/-- The token that repeats an end tag. -/
def Xml.EndTag.token (tag : EndTag) : Token :=
  .endTag (untilBlank (tag.written s)) (s.posOf tag.nameExtent.start)

variable {s} {i : Nat}

/-- What is made from a slot repeats the attribute in the slot. -/
theorem slotAttribute_repeats {values : List (Nat × String)} {slot : Slot} {place : AttributePlace}
    {read : AttributeMarkup} (hplace : slot.StandsAt s isSpace place) (hread : slot.Holds read) :
    (slotAttribute s values slot (s.posOf slot.name.start)).Repeats s read := by
  obtain ⟨hquote, hbyte⟩ := ofNat_quote hplace.quote
  have hvalue : read.value = ⟨place.opening + 1, place.closing⟩ := by rw [hread.2, hplace.value]
  refine ⟨?_, ?_, hquote, ?_, ?_⟩
  · rw [hread.1]
    rfl
  · rw [hread.1]
    rfl
  · show s.byte? (read.value.start - 1) = some (byteOf (Char.ofNat slot.quote.toNat))
    rw [hvalue, hbyte]
    exact hplace.opening
  · show s.byte? read.value.stop = some (byteOf (Char.ofNat slot.quote.toNat))
    rw [hvalue, hbyte]
    exact hplace.closing

/-- The attributes that are reported repeat those that were read. -/
theorem slotAttributes_repeat (values : List (Nat × String)) {slots : List Slot}
    {attrs : List AttributeMarkup}
    (hplaces : ∀ slot ∈ slots, ∃ place, slot.StandsAt s isSpace place)
    (hread : List.Forall₂ Slot.Holds slots attrs) :
    List.Forall₂ (TagAttribute.Repeats s)
      (slots.map fun slot => slotAttribute s values slot (s.posOf slot.name.start)) attrs := by
  induction hread with
  | nil => exact .nil
  | cons first _ ih =>
    obtain ⟨⟨place, hplace⟩, hrest⟩ := List.forall_mem_cons.mp hplaces
    exact .cons (slotAttribute_repeats hplace first) (ih hrest)

/-! ### Start tags -/

/-- The name in the token of a start tag. -/
theorem StartTagStandsAt.qualifiedName {stop nameEnd j : Nat} {rest : TagRest} {empty : Bool}
    (h : StartTagStandsAt s stop i nameEnd rest empty j) :
    qualifiedName s (i + 1) = untilBlank (s.slice (i + 1) nameEnd) := by
  obtain ⟨b, hb, hends⟩ := h.rest.byte?_nameEnd
  exact qualifiedName_eq h.name hb hends

/-- The slots behind a name that has been read to its end are those of the tag. -/
theorem StartTagStandsAt.slots_of_untilBlank {stop nameEnd j : Nat} {rest : TagRest} {empty : Bool}
    (h : StartTagStandsAt s stop i nameEnd rest empty j)
    (hname : untilBlank (s.slice (i + 1) nameEnd) = s.slice (i + 1) nameEnd) :
    slots s (i + 1 + (XmlHighlight.qualifiedName s (i + 1)).utf8ByteSize) = rest.slots := by
  obtain ⟨b, hb, hends⟩ := h.rest.byte?_nameEnd
  have hstart := h.name.chars.isBoundary_left h.name.lt
  have hstop := Source.isBoundary_of_ascii hb (ends_qualifiedName hends).1
  have hlt := h.name.lt
  rw [h.qualifiedName, hname, Source.utf8ByteSize_slice hstart hstop (Nat.le_of_lt hlt),
    Nat.add_sub_cancel' (Nat.le_of_lt hlt)]
  exact slots_of_standAt h.rest

/-- There are none behind a name that has been cut off. -/
theorem StartTagStandsAt.slots_of_cut {stop nameEnd j : Nat} {rest : TagRest} {empty : Bool}
    (h : StartTagStandsAt s stop i nameEnd rest empty j)
    (hname : untilBlank (s.slice (i + 1) nameEnd) ≠ s.slice (i + 1) nameEnd) :
    slots s (i + 1 + (XmlHighlight.qualifiedName s (i + 1)).utf8ByteSize) = [] := by
  obtain ⟨b, hb, hends⟩ := h.rest.byte?_nameEnd
  obtain ⟨e, hie, hle, hstart, he, heq⟩ := qualifiedName_of_standsAt h.name hb hends
  have hne : e ≠ nameEnd := by
    rintro rfl
    rw [← h.qualifiedName] at hname
    exact hname heq
  rw [heq, Source.utf8ByteSize_slice hstart he hie, Nat.add_sub_cancel' hie]
  exact slots_of_nameByte (by omega) ((allBytes_of_nameChars h.name.chars).sub hie (Nat.le_refl _))
    h.rest

/-- The token of a start tag is made from the slots in the tag, or from none of them. -/
theorem startTagOf_eq {tag : StartTag} {extent : Extent} (values : List (Nat × String))
    (hread : tag.IsReadAt s extent.start) (hending : tag.IsComplete) :
    ∃ (stop : Nat) (rest : TagRest) (found : List Slot),
    List.Forall₂ Slot.Holds rest.slots tag.attributes ∧
      StartTagStandsAt s stop extent.start tag.nameExtent.stop rest
        (decide (tag.ending = .selfClosed))
        tag.extent.stop ∧
      (untilBlank (tag.written s) = tag.written s ∧ found = rest.slots ∨
        untilBlank (tag.written s) ≠ tag.written s ∧ found = []) ∧
      startTagOf s values extent
        = .startTag (untilBlank (tag.written s)) (s.posOf tag.nameExtent.start)
          (found.map fun slot => slotAttribute s values slot (s.posOf slot.name.start))
          (isSelfClosing s extent) := by
  obtain ⟨-, hname, stop, rest, hslots, htag⟩ := hread.standsAt hending
  have hwritten : tag.written s = s.slice (extent.start + 1) tag.nameExtent.stop := by
    rw [StartTag.written, hname]
  refine ⟨stop, rest, _, hslots, htag,
    ?_, by rw [hwritten, ← htag.qualifiedName, hname, startTagOf]⟩
  rw [hwritten]
  by_cases hwhole : untilBlank (s.slice (extent.start + 1) tag.nameExtent.stop)
      = s.slice (extent.start + 1) tag.nameExtent.stop
  · exact .inl ⟨hwhole, htag.slots_of_untilBlank hwhole⟩
  · exact .inr ⟨hwhole, htag.slots_of_cut hwhole⟩

/-- **Start tags.** The token of an element repeats its start tag. -/
theorem startTagOf_repeats {tag : StartTag} {extent : Extent} (values : List (Nat × String))
    (hread : tag.IsReadAt s extent.start) (hending : tag.IsComplete)
    (hself : isSelfClosing s extent = decide (tag.ending = .selfClosed)) :
    (startTagOf s values extent).RepeatsStart s tag := by
  obtain ⟨stop, rest, found, hslots, htag, hfound, htoken⟩ := startTagOf_eq values hread hending
  rw [hself] at htoken
  refine ⟨_, htoken, fun hwhole => ?_, fun hcut => ?_⟩
  · rcases hfound with ⟨-, rfl⟩ | ⟨hcut, -⟩
    · exact slotAttributes_repeat values htag.rest.slots.exists_place hslots
    · exact absurd hwhole hcut
  · rcases hfound with ⟨hwhole, -⟩ | ⟨-, rfl⟩
    · exact absurd hwhole hcut
    · rfl

/-! ### End tags -/

/-- **End tags.** The token of an element repeats its end tag. An element that is closed before it
    begins has no such token. -/
theorem endTagOf?_eq {tag : EndTag} {extent : Extent}
    (hopening : s.byte? extent.start = some (byteOf '<'))
    (hread : tag.IsReadAt s i) (hstop : extent.stop = tag.extent.stop) :
    endTagOf? s extent = if i < extent.start then none else some (tag.token s) := by
  obtain ⟨-, hname, stop, close, hclose, htag⟩ := hread.standsAt
  have hself := isSelfClosing_of_endTag htag (hstop.trans hclose)
  have hlt := htag.lt
  unfold endTagOf?
  by_cases hbefore : i < extent.start
  · -- No `<` stands between the beginning of the end tag and its end, so the element begins behind
    -- it.
    have hle : close + 1 ≤ extent.start := by
      by_contra hin
      exact htag.allBytes.ne (by decide) (by omega) (by omega) hopening
    rw [if_pos hbefore]
    split
    · rfl
    · have hnone : s.findLast? "</" extent.start extent.stop = none := by
        rw [Source.findLast?, if_neg]
        have hsize : "</".utf8ByteSize = 2 := by decide
        omega
      rw [hnone]
      rfl
  · have hstart := Source.isBoundary_of_ascii hopening (by decide)
    have hend := Source.isBoundary_succ htag.closing (by decide)
    have hholds : holds s extent = true := by
      rw [holds, hstop, hclose, hstart, hend]
      simp only [Bool.and_true, decide_eq_true_eq]
      omega
    obtain ⟨b, hb, hends⟩ := htag.byte?_nameEnd
    rw [if_neg hbefore, if_neg (by simp [hself, hholds]), hstop, hclose, htag.findLast? (by omega)]
    show some (Token.endTag (qualifiedName s (i + 2)) (s.posOf (i + 2))) = _
    rw [qualifiedName_eq htag.name hb hends, EndTag.token, EndTag.written, hname]

/-! ### Nodes that are visited -/

/-- A node shows in a document if it lies inside its parent, as far as that is an element, and if
    its parent shows. -/
inductive Xml.Node.Shows (root : Node) : Node → Prop where
  | root : Shows root root
  | child {n c : Node} (parent : Shows root n) (mem : c ∈ n.children)
      (inside : n.isElement = true → n.extent.start ≤ c.extent.start ∧
        c.extent.stop ≤ n.extent.stop) :
      Shows root c

/-- A node that was not made by an entity is entered, gone through and left. -/
theorem visitNode_eq {above : List (Node × List Node)} {n : Node} (later : List Node)
    (h : isExpanded above n = false) :
    visitNode above later n = .enter ⟨n, later, above⟩
      :: (visitSiblings ((n, later) :: above) n.children ++ [.leave ⟨n, later, above⟩]) := by
  obtain ⟨kind, extent, children⟩ := n
  rw [visitNode, if_neg (by simp [h])]
  rfl

/-- A walk goes through all nodes that show, with the nodes in each of them. -/
theorem Xml.Node.Shows.visited {root n : Node} (h : root.Shows n) :
    ∃ later above, isExpanded above n = false ∧
      ∀ step ∈ visitNode above later n, step ∈ visitSiblings [] [root] := by
  induction h with
  | root =>
    refine ⟨[], [], rfl, fun step hstep => ?_⟩
    exact mem_visitSiblings.mpr ⟨root, [], List.suffix_rfl, hstep⟩
  | @child n c _ mem inside ih =>
    obtain ⟨later, above, hexpanded, hvisit⟩ := ih
    obtain ⟨before, rest, hchildren⟩ := List.append_of_mem mem
    refine ⟨rest, (n, later) :: above, ?_, fun step hstep => hvisit step ?_⟩
    · -- The child does not stick out of its parent.
      rw [isExpanded, Bool.and_eq_false_iff]
      cases helement : n.isElement with
      | false => exact .inl rfl
      | true =>
        obtain ⟨hstart, hstop⟩ := inside helement
        refine .inr ?_
        simp only [Bool.or_eq_false_iff, decide_eq_false_iff_not, Nat.not_lt]
        exact ⟨hstart, hstop⟩
    · rw [visitNode_eq later hexpanded]
      refine List.mem_cons_of_mem _ (List.mem_append_left _ ?_)
      exact mem_visitSiblings.mpr ⟨c, rest, ⟨before, hchildren.symm⟩, hstep⟩

/-! ### The tokens of a document -/

/-- Where a walk enters an element, the token repeats the start tag that has been read there. -/
def EntersAsWritten (s : Source) (place : Location) : Prop :=
  ∃ tag : StartTag, tag.IsReadAt s place.node.extent.start ∧ tag.IsComplete ∧
    ∃ token, tokenOf? s (.enter place) = some token ∧ token.RepeatsStart s tag

/-- Where it leaves an element, the token repeats the end tag with which the element ends. There is
    no token if the element is a single tag, or if its end tag has been read before the place where
    it begins. -/
def LeavesAsWritten (s : Source) (place : Location) : Prop :=
  (∃ tag : StartTag, tag.IsReadAt s place.node.extent.start ∧ tag.ending = .selfClosed ∧
    tokenOf? s (.leave place) = none) ∨
  ∃ (tag : EndTag) (i : Nat), tag.IsReadAt s i ∧ place.node.extent.stop = tag.extent.stop ∧
    tokenOf? s (.leave place) = if i < place.node.extent.start then none else some (tag.token s)

/-- What the tokens of a document repeat. -/
structure ReportsTags (s : Source) (root : Node) : Prop where
  /-- The tokens are those of the steps of a walk, in order. -/
  tokens : (tokensOf s root).toList = (visitSiblings [] [root]).filterMap (tokenOf? s)
  /-- The walk enters and leaves every node that shows. -/
  visited : ∀ n, root.Shows n → ∃ later above,
    Step.enter ⟨n, later, above⟩ ∈ visitSiblings [] [root] ∧
    Step.leave ⟨n, later, above⟩ ∈ visitSiblings [] [root]
  entered : ∀ place, Step.enter place ∈ visitSiblings [] [root] → place.node.isElement = true →
    EntersAsWritten s place
  left : ∀ place, Step.leave place ∈ visitSiblings [] [root] → place.node.isElement = true →
    LeavesAsWritten s place

/-- An element that is a single tag ends like one. -/
theorem Xml.StartTag.IsReadAt.isSelfClosing {tag : StartTag} {extent : Extent}
    (h : tag.IsReadAt s extent.start) (hending : tag.ending = .selfClosed)
    (heq : extent = tag.extent) :
    isSelfClosing s extent = true := by
  obtain ⟨-, -, _, rest, -, htag⟩ := h.standsAt (.inr hending)
  rw [hending, ← heq] at htag
  exact isSelfClosing_of_empty htag

/-- An element that has an end tag does not. -/
theorem Xml.EndTag.IsReadAt.isSelfClosing {tag : EndTag} {extent : Extent} (h : tag.IsReadAt s i)
    (heq : extent.stop = tag.extent.stop) : isSelfClosing s extent = false := by
  obtain ⟨-, -, _, close, hclose, htag⟩ := h.standsAt
  exact isSelfClosing_of_endTag htag (heq.trans hclose)

/-- **Step.** The tokens of an element repeat the tags that it has been read from. -/
theorem HasTags.asWritten {place : Location} (h : HasTags s place.node)
    (helement : place.node.isElement = true) :
    EntersAsWritten s place ∧ LeavesAsWritten s place := by
  obtain ⟨node, later, above⟩ := place
  cases h with
  | @leaf kind extent children kind_ne =>
    cases kind with
    | element values => exact absurd rfl (kind_ne values)
    | document | text | comment | instruction => cases helement
  | @empty values extent tag opened ending extent_eq =>
    have hcomplete : tag.IsComplete := .inr ending
    have hself := opened.isSelfClosing ending extent_eq
    have hsame : isSelfClosing s extent = decide (tag.ending = .selfClosed) := by
      rw [hself, ending]
      rfl
    refine ⟨⟨tag, opened, hcomplete, _, rfl, startTagOf_repeats values opened hcomplete hsame⟩, ?_⟩
    refine .inl ⟨tag, opened, ending, ?_⟩
    show endTagOf? s extent = none
    rw [endTagOf?, hself]
    rfl
  | @element values extent children tag closing i opened ending closed name_eq stop_eq =>
    have hcomplete : tag.IsComplete := .inl ending
    -- The end tag does not stand in the start tag, so the element is not taken for an empty one.
    obtain ⟨-, -, _, rest, -, htag⟩ := opened.standsAt hcomplete
    have hsame : isSelfClosing s extent = decide (tag.ending = .selfClosed) := by
      rw [closed.isSelfClosing stop_eq, ending]
      rfl
    refine ⟨⟨tag, opened, hcomplete, _, rfl, startTagOf_repeats values opened hcomplete hsame⟩, ?_⟩
    exact .inr ⟨closing, i, closed, stop_eq, endTagOf?_eq htag.opening closed stop_eq⟩

/-- **Tags as written.** The tokens of a document repeat the tags that its elements have been read
    from, if no name has a blank character in it. -/
theorem tags_as_written {root : Node} (hparse : parse s = .ok root) : ReportsTags s root where
  tokens := tokensOf_eq_filterMap root
  visited n hn := by
    obtain ⟨later, above, hexpanded, hvisit⟩ := hn.visited
    rw [visitNode_eq later hexpanded] at hvisit
    refine ⟨later, above, hvisit _ List.mem_cons_self, hvisit _ (List.mem_cons_of_mem _ ?_)⟩
    exact List.mem_append_right _ List.mem_cons_self
  entered place hplace helement :=
    (HasTags.asWritten ((parse_hasTags hparse).of_mem_walk _ hplace) helement).1
  left place hplace helement :=
    (HasTags.asWritten ((parse_hasTags hparse).of_mem_walk _ hplace) helement).2

/-- A document with a prefix, a namespace declaration, and an empty element. Its first token has the
    prefix and both attributes, and repeats the tag that has been read where the element begins. -/
theorem tags_as_written_prefixed :
    let s := Source.ofText "<p:a xmlns:p = 'u' x=\"1\"><b/></p:a >"
    let first := Token.startTag "p:a" ⟨1, 2⟩
      [⟨"xmlns:p", "u", '\'', ⟨1, 6⟩⟩, ⟨"x", "1", '"', ⟨1, 20⟩⟩] false
    ∃ root, parse s = .ok root ∧ ReportsTags s root ∧
      tokensOf s root = #[first, .startTag "b" ⟨1, 27⟩ [] true, .endTag "p:a" ⟨1, 32⟩] ∧
      ∃ place, Step.enter place ∈ visitSiblings [] [root] ∧
        tokenOf? s (.enter place) = some first ∧
        ∃ tag : StartTag, tag.IsReadAt s place.node.extent.start ∧ first.RepeatsStart s tag := by
  intro s first
  have hread : (tokens s).toOption
      = some #[first, .startTag "b" ⟨1, 27⟩ [] true, .endTag "p:a" ⟨1, 32⟩] := by decide +kernel
  obtain ⟨root, hparse, htokens⟩ := exists_parse_of_tokens hread
  have hreports := tags_as_written hparse
  have hmem : first ∈ (tokensOf s root).toList := by
    rw [htokens]
    exact List.mem_cons_self
  obtain ⟨place, hplace, helement, hfirst⟩ :=
    exists_enter_of_mem_tokensOf hmem
  obtain ⟨tag, hread, -, token, htoken, hrepeats⟩ := hreports.entered place hplace helement
  obtain rfl : first = token := Option.some.inj (hfirst.symm.trans htoken)
  exact ⟨root, hparse, hreports, htokens, place, hplace, hfirst, tag, hread, hrepeats⟩

/-- A name with a blank character in it, the Ogham space mark. The token has neither the rest of the
    name nor the attribute. -/
theorem token_ends_at_blank :
    let s := Source.ofText "<a\u1680b x='1'/>"
    (tokens s).toOption = some #[.startTag "a" ⟨1, 2⟩ [] true] ∧
      (readStartTag s s.size 0).toOption.map
        (fun r => (r.value.written s, r.value.attributes.map (·.nameExtent)))
        = some ("a\u1680b", [⟨7, 8⟩]) := by
  decide +kernel

end XmlHighlight
