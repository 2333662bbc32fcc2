import XmlHighlight.Proofs.MarkupRuns
import XmlHighlight.Proofs.WrittenNames

/-!
# Tags of elements — what every element has been read from

The start tag and the end tag of an element need not stand in one place, since an entity may open an
element or close one. Still each of the two has been read somewhere, and both have the same name.

* `Xml.StartTag.IsReadAt`, `Xml.EndTag.IsReadAt` — a tag that has been read;
* `Xml.StartTag.written`, `Xml.EndTag.written` — the name of a tag as written;
* `HasTags`, `Xml.OpenElement.IsOpened` — a node, and an open element, with the tags it has been
  read from;
* `markupKeeps_hasTags` — every piece of markup keeps it so;
* `parse_hasTags` — all elements of a document have their tags;
* `IsOpened`, `IsTagged`, `HasTags.isTagged` — what stands where an element begins and ends;
* `Xml.Node.Everywhere.of_mem_visitNode` — a walk stops only at nodes of the document.
-/

namespace XmlHighlight

open Xml

variable (s : Source)

/-! ### Tags that have been read -/

/-- A start tag has been read at an offset. -/
def Xml.StartTag.IsReadAt (tag : StartTag) (i : Nat) : Prop :=
  ∃ (stop : Nat) (r : Found i StartTag), s.isBoundary stop = true ∧ s.byte? i = some (byteOf '<') ∧
    readStartTag s stop i = .ok r ∧ r.value = tag

/-- An end tag has been read at an offset. -/
def Xml.EndTag.IsReadAt (tag : EndTag) (i : Nat) : Prop :=
  ∃ (stop : Nat) (r : Found i EndTag), s.isBoundary stop = true ∧ s.byte? i = some (byteOf '<') ∧
    s.byte? (i + 1) = some (byteOf '/') ∧ readEndTag s stop i = .ok r ∧ r.value = tag

/-- The name of a start tag as written. -/
def Xml.StartTag.written (tag : StartTag) : String :=
  s.slice tag.nameExtent.start tag.nameExtent.stop

/-- The name of an end tag as written. -/
def Xml.EndTag.written (tag : EndTag) : String := s.slice tag.nameExtent.start tag.nameExtent.stop

/-- A tag that is complete: it ends with `>` or `/>`. -/
def Xml.StartTag.IsComplete (tag : StartTag) : Prop :=
  tag.ending = .opened ∨ tag.ending = .selfClosed

variable {s} {stop i j : Nat}

/-- A start tag that has been read has the shape of one. -/
theorem Xml.StartTag.IsReadAt.standsAt {tag : StartTag} (h : tag.IsReadAt s i)
    (hending : tag.IsComplete) :
    tag.extent.start = i ∧ tag.nameExtent.start = i + 1 ∧
      ∃ (stop : Nat) (rest : TagRest), List.Forall₂ Slot.Holds rest.slots tag.attributes ∧
        StartTagStandsAt s stop i tag.nameExtent.stop rest (decide (tag.ending = .selfClosed))
          tag.extent.stop := by
  obtain ⟨stop, r, hstop, hi, hread, rfl⟩ := h
  obtain ⟨hextent, -, nameEnd, rest, hname, hslots, htag⟩ :=
    readStartTag_standsAt hstop hi hread hending
  rw [hextent, hname]
  exact ⟨rfl, rfl, stop, rest, hslots, htag⟩

/-- The parts of an end tag stand where they were read. -/
theorem Xml.EndTag.IsReadAt.standsAt {tag : EndTag} (h : tag.IsReadAt s i) :
    tag.extent.start = i ∧ tag.nameExtent.start = i + 2 ∧
      ∃ stop close, tag.extent.stop = close + 1 ∧
      EndTagStandsAt s stop i tag.nameExtent.stop close := by
  obtain ⟨stop, r, hstop, hi, hslash, hread, rfl⟩ := h
  obtain ⟨nameEnd, close, hname, hextent, -, -, htag⟩ := readEndTag_standsAt hstop hi hslash hread
  rw [hextent, hname]
  exact ⟨rfl, rfl, stop, close, rfl, htag⟩

/-- The name of an end tag ends at an ASCII character. -/
theorem EndTagStandsAt.byte?_nameEnd {nameEnd close : Nat}
    (h : EndTagStandsAt s stop i nameEnd close) :
    ∃ b, s.byte? nameEnd = some b ∧ (isSpace b = true ∨ b = byteOf '/' ∨ b = byteOf '>') := by
  obtain ⟨b, hb, hspace | rfl⟩ := h.spaces.head h.name_le h.closing
  · exact ⟨b, hb, .inl hspace⟩
  · exact ⟨_, hb, .inr (.inr rfl)⟩

/-- The name that a start tag is given stands in it. -/
theorem Xml.StartTag.IsReadAt.isWrittenAs {tag : StartTag} (h : tag.IsReadAt s i)
    (hending : tag.IsComplete) : tag.name.IsWrittenAs (tag.written s) := by
  obtain ⟨-, -, _, rest, -, htag⟩ := h.standsAt hending
  obtain ⟨b, hb, hends⟩ := htag.rest.byte?_nameEnd
  have hnext := Source.isBoundary_of_ascii hb (ends_qualifiedName hends).1
  obtain ⟨stop, r, -, -, hread, rfl⟩ := h
  rw [readStartTag, bind_eq_ok] at hread
  obtain ⟨name, hname, hread⟩ := hread
  cases hread
  exact readQName_isWrittenAs (htag.name.chars.isBoundary_left htag.name.lt) hname hnext

/-- The name of an end tag is the one that is written there. -/
theorem Xml.EndTag.IsReadAt.isWrittenAs {tag : EndTag} (h : tag.IsReadAt s i) :
    tag.name.IsWrittenAs (tag.written s) := by
  obtain ⟨-, -, _, close, -, htag⟩ := h.standsAt
  obtain ⟨b, hb, hends⟩ := htag.byte?_nameEnd
  have hnext := Source.isBoundary_of_ascii hb (ends_qualifiedName hends).1
  obtain ⟨stop, r, -, -, -, hread, rfl⟩ := h
  rw [readEndTag, bind_eq_ok] at hread
  obtain ⟨name, hname, hread⟩ := hread
  rw [bind_eq_ok] at hread
  obtain ⟨_, -, hread⟩ := hread
  cases hread
  exact readQName_isWrittenAs (htag.name.chars.isBoundary_left htag.name.lt) hname hnext

/-! ### Elements with their tags -/

variable (s)

/-- A node, if it is an element, has been read from a tag that ends with `/>`, or from a start tag
    and an end tag with the same name. -/
inductive HasTags : Node → Prop where
  | leaf {kind : NodeKind} {extent : Extent} {children : List Node}
      (kind_ne : ∀ values, kind ≠ .element values) : HasTags (.node kind extent children)
  | empty {values : List (Nat × String)} {extent : Extent} {tag : StartTag}
      (opened : tag.IsReadAt s extent.start) (ending : tag.ending = .selfClosed)
      (extent_eq : extent = tag.extent) : HasTags (.node (.element values) extent [])
  | element {values : List (Nat × String)} {extent : Extent} {children : List Node} {tag : StartTag}
      {closing : EndTag} {i : Nat} (opened : tag.IsReadAt s extent.start)
      (ending : tag.ending = .opened)
      (closed : closing.IsReadAt s i) (name_eq : tag.name = closing.name)
      (stop_eq : extent.stop = closing.extent.stop) :
      HasTags (.node (.element values) extent children)

/-- An open element has been read from a start tag. -/
def Xml.OpenElement.IsOpened (element : OpenElement) : Prop :=
  ∃ tag : StartTag, tag.IsReadAt s element.start ∧ tag.ending = .opened ∧ element.name = tag.name

/-- The nodes of a document under construction have their tags. -/
def Xml.Tree.HasTags (t : Xml.Tree) : Prop :=
  t.Everywhere (XmlHighlight.HasTags s) (OpenElement.IsOpened s)

variable {s} {entities : Array Entity} {t t' : Xml.Tree}

/-- A node that is no element has no tags to have. -/
theorem hasTags_leaf {kind : NodeKind} {extent : Extent}
    (hkind : ∀ values, kind ≠ .element values) :
    (Node.node kind extent []).Everywhere (HasTags s) :=
  .node (.leaf hkind) (List.forall_mem_nil _)

/-- A start tag adds an element, or a level for its content, or is cut off. -/
theorem startTag_hasTags {room : Nat} {tag : StartTag} (hread : tag.IsReadAt s i)
    (hstart : tag.extent.start = i) (ht : t.HasTags s)
    (h : t.startTag s entities room tag = .ok t') :
    t'.HasTags s := by
  subst hstart
  obtain ⟨read, -, htop, hlevels, hcases⟩ := startTag_cases h
  have hbefore : read.HasTags s := Tree.Everywhere.congr ht htop hlevels
  rcases hcases with ⟨-, rfl⟩ | ⟨hending, rfl⟩ | ⟨scope, hending, rfl⟩
  · exact hbefore
  · refine everywhere_addNode.mpr ⟨Tree.Everywhere.congr hbefore rfl rfl, ?_⟩
    exact .node (.empty hread hending rfl) (List.forall_mem_nil _)
  · exact (everywhere_open read _ _ _).mpr ⟨hbefore, tag, hread, hending, rfl⟩

/-- An end tag makes an element of the innermost level, wherever that has been opened. -/
theorem endTag_hasTags {tag : EndTag} (hread : tag.IsReadAt s i) (ht : t.HasTags s)
    (h : t.endTag tag = .ok t') : t'.HasTags s := by
  obtain ⟨element, children, outer, hlevels, hname, rfl⟩ := endTag_cases h
  have helement := ht.levels ⟨element, children⟩ (by rw [hlevels]; exact List.mem_cons_self)
  obtain ⟨opening, hopening, hending, hopened⟩ := helement.1
  have hsame : opening.name = tag.name := by
    rw [← hopened]
    exact beq_iff_eq.mp hname
  have hnode : HasTags s
      (.node (.element element.values) ⟨element.start, tag.extent.stop⟩ children.reverse) :=
    .element hopening hending hread hsame rfl
  exact (everywhere_close hlevels helement.1 _ _ _ _).mpr ⟨ht, hnode⟩

/-- **Step.** Every piece of markup that is read up to a boundary keeps the tags of elements. -/
theorem markupKeeps_hasTags (s : Source) (entities : Array Entity) :
    MarkupKeeps s entities (fun stop _ => s.isBoundary stop = true) (Tree.HasTags s) where
  congr ht htop hlevels := Tree.Everywhere.congr ht htop hlevels
  leaf _ hkind ht := everywhere_addNode.mpr ⟨ht, hasTags_leaf hkind⟩
  startTag hstop hi hread ht h :=
    startTag_hasTags ⟨_, _, hstop, hi, hread, rfl⟩ (readStartTag_start hread) ht h
  endTag hstop hi hslash hread ht h := endTag_hasTags ⟨_, _, hstop, hi, hslash, hread, rfl⟩ ht h

/-! ### The whole document -/

theorem IsQuoted.isBoundary {value : Extent} (h : IsQuoted s value) :
    s.isBoundary value.stop = true := by
  obtain ⟨-, b, hb, hquote⟩ := h
  exact Source.isBoundary_of_ascii hb (lt_of_isQuote hquote)

theorem addMisc_everywhere {p : Node → Prop} {q : OpenElement → Prop}
    (hleaf : ∀ kind extent, (∀ values, kind ≠ .element values) → p (.node kind extent []))
    (pieces : Array Markup) (ht : t.Everywhere p q) : (t.addMisc pieces).Everywhere p q := by
  rw [Tree.addMisc, ← Array.foldl_toList]
  induction pieces.toList generalizing t with
  | nil => exact ht
  | cons piece rest ih =>
    rw [List.foldl_cons]
    refine ih ?_
    -- Only comments and instructions are added.
    have hadd : ∀ kind extent, (∀ values, kind ≠ .element values) →
        (t.addLeaf kind extent).Everywhere p q := fun kind extent hkind =>
      (everywhere_addNode.mpr ⟨ht, .node (hleaf kind extent hkind) (List.forall_mem_nil _)⟩).congr
        rfl rfl
    cases piece with
    | comment extent => exact hadd .comment extent (by simp)
    | instruction extent => exact hadd .instruction extent (by simp)
    | startTag | endTag | cdata | text => exact ht

/-- All elements in the root have the tags that they were read from. -/
theorem readRoot_hasTags (hentities : ∀ entity ∈ entities, IsQuoted s entity.value)
    (ht : t.HasTags s)
    (h : readRoot s entities s.size i t = .ok (t', j)) : t'.HasTags s := by
  have hkeeps := markupKeeps_hasTags s entities
  rcases readRoot_cases h with ⟨rfl, rfl⟩ | ⟨r, t₁, hi, hread, hstart, hrest⟩
  · exact ht
  · have hopened := hkeeps.startTag Source.isBoundary_size hi hread ht hstart
    rcases hrest with ⟨-, hcontent⟩ | ⟨-, rfl, rfl⟩
    · refine content_keeps hkeeps ?_ (fun _ _ _ => Source.isBoundary_size) hopened hcontent
      exact expandIn_keeps hkeeps (fun entity hmem _ _ _ => (hentities entity hmem).isBoundary) _
    · exact hopened

/-- **Elements of a document.** Every element of a document has been read from its tags. -/
theorem parse_hasTags {root : Node} (hparse : parse s = .ok root) :
    root.Everywhere (HasTags s) := by
  obtain ⟨prolog, i, pieces, j, k, hprolog, t, hroot, -, -, -, rfl⟩ := parse_cases hparse
  have hleaf : ∀ kind extent, (∀ values, kind ≠ .element values) →
      HasTags s (.node kind extent []) := fun _ _ hkind => .leaf hkind
  have hbefore : (Tree.empty.addMisc prolog.pieces).HasTags s :=
    addMisc_everywhere hleaf prolog.pieces everywhere_empty
  have hread := readRoot_hasTags (fun entity hmem => (readProlog_isQuoted hprolog entity hmem).1)
    hbefore hroot
  have hall := addMisc_everywhere hleaf pieces hread
  exact .node (.leaf (by simp)) fun n hn => hall.top n (List.mem_reverse.mp hn)

/-! ### Where the tags stand -/

variable (s)

/-- Where an element begins stands `<`, with `>` somewhere behind it. -/
structure IsOpened (i : Nat) : Prop where
  opening : s.byte? i = some (byteOf '<')
  greater : ∃ k, i < k ∧ s.byte? k = some (byteOf '>')

/-- Tags stand where an element begins and where it ends. Nothing is said of what is between
    them. -/
structure IsTagged (extent : Extent) : Prop where
  opened : IsOpened s extent.start
  closed : ∃ k, extent.stop = k + 1 ∧ s.byte? k = some (byteOf '>')

variable {s}

/-- A start tag that has been read ends with `>`. -/
theorem Xml.StartTag.IsReadAt.closing {tag : StartTag} (h : tag.IsReadAt s i)
    (hending : tag.IsComplete) :
    IsOpened s i ∧ ∃ k, tag.extent.stop = k + 1 ∧ s.byte? k = some (byteOf '>') := by
  obtain ⟨-, -, _, rest, -, htag⟩ := h.standsAt hending
  obtain ⟨hlt, hgreater⟩ := htag.rest.byte?_stop
  have hname := htag.name.lt
  exact ⟨⟨htag.opening, _, by omega, hgreater⟩, _, by omega, hgreater⟩

/-- The tags that an element has been read from stand where it begins and ends. -/
theorem HasTags.isTagged {values : List (Nat × String)} {extent : Extent} {children : List Node}
    (h : HasTags s (.node (.element values) extent children)) : IsTagged s extent := by
  cases h with
  | leaf kind_ne => exact absurd rfl (kind_ne values)
  | empty opened ending extent_eq =>
    obtain ⟨hopened, hclosed⟩ := opened.closing (.inr ending)
    rw [← extent_eq] at hclosed
    exact ⟨hopened, hclosed⟩
  | element opened ending closed name_eq stop_eq =>
    obtain ⟨-, -, _, close, hstop, htag⟩ := closed.standsAt
    exact ⟨(opened.closing (.inl ending)).1, close, stop_eq.trans hstop, htag.closing⟩

/-! ### A walk through it -/

/-- The node at which a walk stops. -/
def Step.node : Step → Node
  | .enter place => place.node
  | .leave place => place.node

/-- The steps through some siblings are the steps through each of them, where it is known what
    follows it. -/
theorem mem_visitSiblings {above : List (Node × List Node)} {nodes : List Node} {step : Step} :
    step ∈ visitSiblings above nodes ↔
      ∃ n later, n :: later <:+ nodes ∧ step ∈ visitNode above later n := by
  induction nodes with
  | nil =>
    rw [visitSiblings]
    refine ⟨fun h => absurd h List.not_mem_nil, ?_⟩
    rintro ⟨n, later, hsuffix, -⟩
    exact absurd (List.suffix_nil.mp hsuffix) (List.cons_ne_nil n later)
  | cons first rest ih =>
    rw [visitSiblings, List.mem_append, ih]
    constructor
    · rintro (h | ⟨n, later, hsuffix, h⟩)
      · exact ⟨first, rest, List.suffix_rfl, h⟩
      · exact ⟨n, later, hsuffix.trans (List.suffix_cons first rest), h⟩
    · rintro ⟨n, later, hsuffix, h⟩
      rcases List.suffix_cons_iff.mp hsuffix with heq | hsuffix
      · cases heq
        exact .inl h
      · exact .inr ⟨n, later, hsuffix, h⟩

/-- A walk through a node stops only at the nodes in it. -/
theorem Xml.Node.Everywhere.of_mem_visitNode {p : Node → Prop} {n : Node} (h : n.Everywhere p) :
    ∀ above later, ∀ step ∈ visitNode above later n, p step.node := by
  induction h with
  | @node kind extent children here inside ih =>
    intro above later step hstep
    rw [visitNode] at hstep
    split at hstep
    · exact absurd hstep List.not_mem_nil
    · rw [List.mem_cons, List.mem_append, List.mem_singleton] at hstep
      rcases hstep with rfl | hstep | rfl
      · exact here
      · obtain ⟨child, rest, hsuffix, hstep⟩ := mem_visitSiblings.mp hstep
        exact ih child (hsuffix.mem List.mem_cons_self) _ rest step hstep
      · exact here

/-- So does a walk through a whole document. -/
theorem Xml.Node.Everywhere.of_mem_walk {p : Node → Prop} {root : Node} (h : root.Everywhere p) :
    ∀ step ∈ visitSiblings [] [root], p step.node := by
  intro step hstep
  obtain ⟨n, later, hsuffix, hvisit⟩ := mem_visitSiblings.mp hstep
  obtain rfl := List.mem_singleton.mp (hsuffix.mem List.mem_cons_self)
  exact h.of_mem_visitNode _ later step hvisit

end XmlHighlight
