import XmlHighlight.Proofs.SourceOrder

/-!
# Order kept — the nodes of a document in the order of the text

A document in order stays in order while it is being read. No piece of markup breaks this, in an
entity or outside, so the nodes of a whole document are in order. What an entity puts beside the
root element is no exception, as nothing is said about where that stands.

* `markupKeeps_inOrder`, `add_inOrder` — every piece of markup keeps a document in order, in an
  entity and outside;
* `content_inOrder` — and so does all content;
* `MiscInOrder` — what stands around the root element;
* `parse_inOrder` — the nodes of a document.
-/

namespace XmlHighlight

open Xml

variable {s : Source} {R m lo hi i j stop : Nat} {entities : Array Entity} {t t' : Xml.Tree}
  {node : Node}

namespace Xml.Tree.InOrder

/-- A node that is no element can be added if it stands behind what has been read. -/
theorem addLeafNode {kind : NodeKind} {extent : Extent} (h : t.InOrder s R entities extent.start)
    (hkind : ∀ values, kind ≠ .element values) (hle : leafOffset kind extent ≤ hi) :
    (t.addNode (.node kind extent [])).InOrder s R entities hi :=
  h.addShown (.leaf hkind (Nat.le_refl _) (.nil hle))

/-- A piece of text behind what has been read does not move its end, since the text may be cut into
    several pieces that begin at the same place. -/
theorem appendText {extent : Extent} (h : t.InOrder s R entities extent.start) :
    (t.appendText extent).InOrder s R entities extent.start := by
  unfold Tree.appendText
  split
  · exact h
  · have hkind : ∀ values, NodeKind.text ≠ .element values := by simp
    exact (h.addLeafNode hkind (Nat.le_refl _)).congr rfl rfl

end Xml.Tree.InOrder

/-! ### In an entity -/

/-- A place in the value of an entity. -/
def EntityPlace (entities : Array Entity) (stop i : Nat) : Prop :=
  ∃ entity ∈ entities, stop = entity.value.stop ∧ entity.value.start ≤ i ∧ i < stop

/-- What is read in the value of an entity lies in that entity. -/
theorem EntityPlace.inEntity (h : EntityPlace entities stop i) (hij : i ≤ j) (hj : j < stop) :
    InEntity entities j := by
  obtain ⟨entity, hmem, rfl, hstart, -⟩ := h
  exact ⟨entity, hmem, Nat.le_trans hstart hij, hj⟩

theorem EntityPlace.here (h : EntityPlace entities stop i) : InEntity entities i :=
  h.inEntity (Nat.le_refl i) h.choose_spec.2.2.2

/-- An end tag in an entity ends in it, too. -/
theorem inEntity_of_readEndTag {r : Found i EndTag} (hentities : EntitiesBefore s R entities)
    (hplace : EntityPlace entities stop i) (hi : s.byte? i = some (byteOf '<'))
    (hslash : s.byte? (i + 1) = some (byteOf '/')) (hread : readEndTag s stop i = .ok r) :
    InEntity entities (r.value.extent.stop - 1) := by
  obtain ⟨entity, hmem, hstop, -⟩ := id hplace
  have hboundary : s.isBoundary _ = true := (hentities entity hmem).1.isBoundary
  rw [← hstop] at hboundary
  obtain ⟨nameEnd, close, -, hextent, -, hclose, htag⟩ :=
    readEndTag_standsAt hboundary hi hslash hread
  rw [hextent]
  exact hplace.inEntity (Nat.le_of_lt htag.lt) hclose

/-- A start tag in an entity opens a hidden element, or adds one. -/
theorem startTag_inOrder_entity {room : Nat} {tag : StartTag}
    (hstart : InEntity entities tag.extent.start) (ht : t.InOrder s R entities hi)
    (h : t.startTag s entities room tag = .ok t') : t'.InOrder s R entities hi := by
  obtain ⟨read, -, htop, hlevels, hcases⟩ := startTag_cases h
  have hbefore : read.InOrder s R entities hi := ht.congr htop hlevels
  rcases hcases with ⟨-, rfl⟩ | ⟨-, rfl⟩ | ⟨scope, -, rfl⟩
  · exact hbefore
  · have hsettled : ({ read with pending := .empty, afterText := false } : Tree).InOrder s R
        entities hi := hbefore.congr rfl rfl
    exact hsettled.addHidden hstart nofun
  · exact hbefore.openHidden hstart rfl rfl

/-- An end tag in an entity closes an element, wherever that begins. -/
theorem endTag_inOrder_entity {tag : EndTag} (hentities : EntitiesBefore s R entities)
    (hstop : InEntity entities (tag.extent.stop - 1)) (ht : t.InOrder s R entities hi)
    (h : t.endTag tag = .ok t') : t'.InOrder s R entities hi := by
  obtain ⟨element, children, outer, hlevels, -, rfl⟩ := endTag_cases h
  refine ht.closeInEntity hentities hlevels hstop ?_ ?_ element.values rfl
  · rfl
  · rfl

/-- **Step.** No piece of markup in an entity breaks the order. -/
theorem markupKeeps_inOrder (hentities : EntitiesBefore s R entities) (hi : Nat) :
    MarkupKeeps s entities (EntityPlace entities) (Tree.InOrder s R entities hi) where
  congr ht htop hlevels := ht.congr htop hlevels
  leaf hplace _ ht := ht.addHidden hplace.here fun _ => rfl
  startTag hplace _ hread ht h :=
    startTag_inOrder_entity (by rw [readStartTag_start hread]; exact hplace.here) ht h
  endTag hplace hi hslash hread ht h :=
    endTag_inOrder_entity hentities (inEntity_of_readEndTag hentities hplace hi hslash hread) ht h

/-! ### Outside of entities -/

/-- A start tag outside of entities stands behind what has been read. -/
theorem startTag_inOrder {room : Nat} {r : Found i StartTag} (hR : R ≤ i)
    (hi : s.byte? i = some (byteOf '<')) (hread : readStartTag s s.size i = .ok r)
    (ht : t.InOrder s R entities i) (h : t.startTag s entities room r.value = .ok t') :
    t'.InOrder s R entities r.next := by
  have hstart := readStartTag_start hread
  have hopening : r.value.IsReadAt s r.value.extent.start := by
    rw [hstart]
    exact ⟨_, r, Source.isBoundary_size, hi, hread, rfl⟩
  obtain ⟨read, -, htop, hlevels, hcases⟩ := startTag_cases h
  have hbefore : read.InOrder s R entities i := ht.congr htop hlevels
  -- The tag was cut off and leaves no node, or it is an element by itself, or it opens one.
  rcases hcases with ⟨-, rfl⟩ | ⟨hending, rfl⟩ | ⟨scope, hending, rfl⟩
  · exact hbefore.mono (Nat.le_of_lt r.lt_next)
  · obtain ⟨hextent, -⟩ := readStartTag_standsAt Source.isBoundary_size hi hread (.inr hending)
    have hsettled : ({ read with pending := .empty, afterText := false } : Tree).InOrder s R
        entities i := hbefore.congr rfl rfl
    have hnone : NodesInOrder s R entities r.value.extent.stop [] r.next := .nil (by rw [hextent])
    exact hsettled.addShown
      (.empty (by rwa [hstart]) (Nat.le_of_eq hstart.symm) hopening hending rfl hnone)
  · obtain ⟨hextent, -⟩ := readStartTag_standsAt Source.isBoundary_size hi hread (.inl hending)
    have hnext : r.next = r.value.extent.stop := by rw [hextent]
    rw [hnext]
    exact hbefore.openShown (Nat.le_of_eq hstart.symm) hopening hending rfl rfl rfl

/-- An end tag outside of entities closes the innermost element, wherever that has been opened. -/
theorem endTag_inOrder {r : Found i EndTag} (hi : s.byte? i = some (byteOf '<'))
    (hslash : s.byte? (i + 1) = some (byteOf '/')) (hread : readEndTag s s.size i = .ok r)
    (ht : t.InOrder s R entities i) (h : t.endTag r.value = .ok t') :
    t'.InOrder s R entities r.next := by
  have hclosing : r.value.IsReadAt s i := ⟨_, r, Source.isBoundary_size, hi, hslash, hread, rfl⟩
  obtain ⟨nameEnd, close, -, hextent, hclose, -⟩ :=
    readEndTag_standsAt Source.isBoundary_size hi hslash hread
  have hnext : r.next = r.value.extent.stop := by rw [hclose, hextent]
  obtain ⟨element, children, outer, hlevels, hname, rfl⟩ := endTag_cases h
  rw [hnext]
  refine ht.closeElement hlevels hclosing (beq_iff_eq.mp hname) ?_ ?_ element.values rfl
  · rfl
  · rfl

/-- **Step.** A piece of markup outside of entities keeps the order, if the entities in it do. -/
theorem add_inOrder {room : Nat}
    {expand : Nat → Extent → Xml.Tree → Except SyntaxError Xml.Tree} {r : Found i Markup}
    (hexpand : ExpandKeeps entities (Tree.InOrder s R entities i) expand) (hR : R ≤ i)
    (hread : readMarkup s s.size i = .ok r) (ht : t.InOrder s R entities i)
    (h : t.add s entities expand room r.value = .ok t') : t'.InOrder s R entities r.next := by
  obtain ⟨value, next, hlt⟩ := r
  have hadds : Adds s entities expand room s.size i t t' value next := add_cases hread h
  cases hadds with
  | comment room_le _ eq =>
    subst eq
    have hle : leafOffset .comment ⟨i, next⟩ ≤ next := by
      rw [leafOffset, if_pos rfl]
      show i + 4 ≤ next
      omega
    exact (ht.addLeafNode (by simp) hle).congr rfl rfl
  | cdata start_eq eq =>
    subst eq start_eq
    exact ht.appendText.mono (Nat.le_of_lt hlt)
  | @instruction extent _ start_eq eq =>
    subst eq start_eq
    have hle : leafOffset .instruction extent ≤ next := by
      rw [leafOffset, if_neg (by simp)]
      exact Nat.le_of_lt hlt
    exact (ht.addLeafNode (by simp) hle).congr rfl rfl
  | endTag opening slash read eq => exact endTag_inOrder opening slash read ht eq
  | startTag opening read eq => exact startTag_inOrder hR opening read ht eq
  | text start_eq eq =>
    subst start_eq
    -- What comes out of an entity does not move the end of what has been read.
    exact (addText_keeps hexpand (fun hpiece => hpiece.appendText) ht eq).mono (Nat.le_of_lt hlt)

/-- **Run.** So does all content. -/
theorem content_inOrder {room : Nat} (hentities : EntitiesBefore s R entities) (hR : R ≤ i)
    (ht : t.InOrder s R entities i) (h : content s entities room s.size i t = .ok (t', j)) :
    R ≤ j ∧ t'.InOrder s R entities j := by
  have hexpand : ∀ hi, ExpandKeeps entities (Tree.InOrder s R entities hi)
      (expandIn s entities room) := fun hi =>
    expandIn_keeps (markupKeeps_inOrder hentities hi)
      (fun entity hmem k hstart hstop => ⟨entity, hmem, rfl, hstart, hstop⟩) room
  rw [content_eq] at h
  obtain ⟨-, hlast⟩ := readContent_keeps (P := fun i _ t => R ≤ i ∧ t.InOrder s R entities i)
    (fun _ hread hadd ht => ⟨Nat.le_trans ht.1 (Nat.le_of_lt (Found.lt_next _)),
      add_inOrder (hexpand _) ht.1 hread ht.2 hadd⟩) ⟨hR, ht⟩ h
  exact hlast

/-! ### Around the root element -/

/-- The node of a comment or an instruction. -/
def miscNode? : Markup → Option Node
  | .comment extent => some (.node .comment extent [])
  | .instruction extent => some (.node .instruction extent [])
  | _ => none

/-- The nodes of some comments and instructions. -/
def miscNodes (pieces : Array Markup) : List Node := pieces.toList.filterMap miscNode?

variable {pieces : Array Markup} {n : Node}

/-- None of them is an element. -/
theorem isElement_of_mem_miscNodes (h : n ∈ miscNodes pieces) : n.isElement = false := by
  obtain ⟨piece, -, hpiece⟩ := List.mem_filterMap.mp h
  cases piece with
  | comment | instruction =>
    cases hpiece
    rfl
  | startTag | endTag | cdata | text => cases hpiece

/-- They leave no element open that has not been open before. -/
theorem addMisc_levels (h : (t.addMisc pieces).levels = []) : t.levels = [] := by
  rw [Tree.addMisc, ← Array.foldl_toList] at h
  generalize pieces.toList = list at h
  induction list generalizing t with
  | nil => exact h
  | cons piece rest ih =>
    rw [List.foldl_cons] at h
    -- With an element open, a leaf would join its children and leave the element open.
    have hadd : ∀ kind extent, (t.addLeaf kind extent).levels = [] → t.levels = [] := by
      intro kind extent hnil
      cases hlevels : t.levels with
      | nil => rfl
      | cons level outer =>
        have hcons := (addNode_of_cons (.node kind extent []) hlevels).2
        exact absurd (hcons.symm.trans hnil) (List.cons_ne_nil _ _)
    cases piece with
    | comment extent => exact hadd .comment extent (ih h)
    | instruction extent => exact hadd .instruction extent (ih h)
    | startTag | endTag | cdata | text => exact ih h

/-- Comments and instructions are added behind what is there. -/
theorem addMisc_of_nil (pieces : Array Markup) (h : t.levels = []) :
    (t.addMisc pieces).levels = [] ∧
    (t.addMisc pieces).top = (miscNodes pieces).reverse ++ t.top := by
  rw [Tree.addMisc, ← Array.foldl_toList, miscNodes]
  induction pieces.toList generalizing t with
  | nil => exact ⟨h, rfl⟩
  | cons piece rest ih =>
    rw [List.foldl_cons]
    have hadd : ∀ kind extent, (t.addLeaf kind extent).levels = [] ∧
        (t.addLeaf kind extent).top = .node kind extent [] :: t.top := fun kind extent =>
      ⟨(addNode_of_nil _ h).2, (addNode_of_nil _ h).1⟩
    cases hnode : miscNode? piece with
    | none =>
      rw [List.filterMap_cons_none hnode]
      cases piece with
      | comment | instruction => cases hnode
      | startTag | endTag | cdata | text => exact ih h
    | some node =>
      rw [List.filterMap_cons_some hnode, List.reverse_cons, List.append_assoc,
        List.singleton_append]
      cases piece with
      | comment extent | instruction extent =>
        cases hnode
        rw [← (hadd _ extent).2]
        exact ih (hadd _ extent).1
      | startTag | endTag | cdata | text => cases hnode

variable (s) in
/-- What has been read of a prolog up to an offset: comments and instructions in order from offset
    `lo` on, and entities whose values stand apart from them. -/
structure MiscInOrder (lo i : Nat) (done : Prolog) : Prop where
  apart : ∀ entity ∈ done.entities, 0 < entity.value.start ∧ entity.value.stop < i
  outside : ∀ n ∈ miscNodes done.pieces,
    n.extent.start < i ∧ ¬ InEntity done.entities n.extent.start
  order : ∀ R entities, NodesInOrder s R entities lo (miscNodes done.pieces) i

theorem MiscInOrder.mono {done : Prolog} (h : MiscInOrder s lo i done) (hle : i ≤ j) :
    MiscInOrder s lo j done where
  apart entity hmem := ⟨(h.apart entity hmem).1, Nat.lt_of_lt_of_le (h.apart entity hmem).2 hle⟩
  outside n hn := ⟨Nat.lt_of_lt_of_le (h.outside n hn).1 hle, (h.outside n hn).2⟩
  order R entities := (h.order R entities).mono hle

/-- A comment or an instruction joins the nodes of the prolog behind the others. -/
theorem MiscInOrder.push {done : Prolog} {piece : Markup} {kind : NodeKind} {extent : Extent}
    (h : MiscInOrder s lo i done) (hpiece : miscNodes #[piece] = [.node kind extent []])
    (hkind : ∀ values, kind ≠ .element values) (hstart : extent.start = i) (hlt : i < j)
    (hle : leafOffset kind extent ≤ j) :
    MiscInOrder s lo j { done with pieces := done.pieces.push piece } := by
  have hnodes : miscNodes (done.pieces.push piece)
      = miscNodes done.pieces ++ [.node kind extent []] := by
    rw [← hpiece, miscNodes, miscNodes, miscNodes, Array.toList_push, List.filterMap_append]
  refine ⟨(h.mono (Nat.le_of_lt hlt)).apart, ?_, ?_⟩
  · rw [hnodes, List.forall_mem_append]
    refine ⟨(h.mono (Nat.le_of_lt hlt)).outside, List.forall_mem_singleton.mpr ⟨?_, ?_⟩⟩
    · show extent.start < j
      rwa [hstart]
    · -- The values of all entities read so far end before this piece.
      rintro ⟨entity, hmem, -, hstop⟩
      have := (h.apart entity hmem).2
      exact absurd (hstart ▸ hstop : i < entity.value.stop) (by omega)
  · rw [hnodes]
    exact fun R entities =>
      (h.order R entities).append (.leaf hkind (Nat.le_of_eq hstart.symm) (.nil hle))

/-- **Step.** No comment, instruction or entity breaks the order. -/
theorem miscInOrder_keeps (s : Source) (lo : Nat) : PrologKeeps s (MiscInOrder s lo) where
  mono hij hdone := hdone.mono hij
  comment {i done r} hread hdone := by
    obtain ⟨hextent, hroom, -⟩ := readComment_extent hread
    refine hdone.push rfl (by simp) (by rw [hextent]) r.lt_next ?_
    rw [leafOffset, if_pos rfl, hextent]
    show i + 4 ≤ r.next
    omega
  instruction {i done r} hread hdone := by
    have hstart := readInstruction_start hread
    refine hdone.push rfl (by simp) hstart r.lt_next ?_
    rw [leafOffset, if_neg (by simp), hstart]
    exact Nat.le_of_lt r.lt_next
  entity {i done r} hread hdone := by
    have hlater := hdone.mono (Nat.le_of_lt r.lt_next)
    refine ⟨?_, fun n hn => ⟨(hlater.outside n hn).1, ?_⟩, hlater.order⟩
    · refine forall_mem_append_toArray hlater.apart fun entity hentity => ?_
      obtain ⟨hlt, -, hstop⟩ := readEntity_isQuoted hread entity hentity
      exact ⟨by omega, hstop⟩
    · -- A node read so far lies outside the new value too, since the value comes after it.
      rintro ⟨entity, hmem, hstart, hstop⟩
      rcases Array.mem_append.mp hmem with hmem | hmem
      · exact (hdone.outside n hn).2 ⟨entity, hmem, hstart, hstop⟩
      · obtain ⟨hlt, -⟩ := readEntity_isQuoted hread entity (Option.mem_toArray.mp hmem)
        have := (hdone.outside n hn).1
        omega

/-! ### The whole document -/

/-- The root element is read after what has been read of the document, if there is one. -/
theorem readRoot_inOrder (hentities : EntitiesBefore s i entities) (ht : t.InOrder s i entities i)
    (h : readRoot s entities s.size i t = .ok (t', j)) : i ≤ j ∧ t'.InOrder s i entities j := by
  rcases readRoot_cases h with ⟨rfl, rfl⟩ | ⟨r, t₁, hopening, hread, hstart, hrest⟩
  · exact ⟨Nat.le_refl _, ht⟩
  · have hle := Nat.le_of_lt r.lt_next
    have hstarted := startTag_inOrder (Nat.le_refl i) hopening hread ht hstart
    rcases hrest with ⟨-, hcontent⟩ | ⟨-, rfl, rfl⟩
    · exact content_inOrder hentities hle hstarted hcontent
    · exact ⟨hle, hstarted⟩

/-- What has been read of a prolog is in order. -/
theorem readProlog_inOrder {prolog : Prolog} (h : readProlog s s.size = .ok (prolog, i)) :
    MiscInOrder s 0 i prolog := by
  refine (miscInOrder_keeps s 0).readProlog ⟨?_, ?_, fun _ _ => .nil (Nat.le_refl 0)⟩ h
  · simp
  · simp [miscNodes]

/-- So is what has been read behind the root element. -/
theorem MiscInOrder.readMisc {prolog : Prolog} (hprolog : MiscInOrder s lo i prolog) (hle : i ≤ j)
    {k : Nat} (h : Xml.readMisc s s.size j #[] = .ok (pieces, k)) :
    MiscInOrder s j k ⟨pieces, prolog.entities⟩ := by
  refine (miscInOrder_keeps s j).readMisc _ ⟨?_, ?_, fun _ _ => .nil (Nat.le_refl j)⟩ h
  · exact (hprolog.mono hle).apart
  · simp [miscNodes]

/-- The entities of a prolog stand before the root element. -/
theorem readProlog_entitiesBefore {prolog : Prolog} (h : readProlog s s.size = .ok (prolog, i)) :
    EntitiesBefore s i prolog.entities :=
  fun entity hmem => readProlog_isQuoted h entity hmem

/-- A document is read in three parts: comments and instructions, what is read as its root element,
    and comments and instructions again. The second part is not empty. -/
theorem parse_parts {root : Node} {prolog : Prolog} (hparse : parse s = .ok root)
    (hprolog : readProlog s s.size = .ok (prolog, i)) :
    ∃ (t t' : Xml.Tree) (j k : Nat) (pieces : Array Markup),
      t.levels = [] ∧ t.top = (miscNodes prolog.pieces).reverse ∧
      readRoot s prolog.entities s.size i t = .ok (t', j) ∧ t'.levels = [] ∧
      t'.InOrder s i prolog.entities j ∧ MiscInOrder s j k ⟨pieces, prolog.entities⟩ ∧
      root = .node .document ⟨0, s.size⟩ (t'.top.reverse ++ miscNodes pieces) ∧ t'.top ≠ t.top := by
  obtain ⟨pieces, j, k, t', hroot, hmisc, hlevels, helement, rfl⟩ :=
    parse_cases_of_prolog hparse hprolog
  obtain ⟨hnil, htop⟩ := addMisc_of_nil (t := .empty) prolog.pieces rfl
  rw [show Tree.empty.top = [] from rfl, List.append_nil] at htop
  have hbefore := readProlog_inOrder hprolog
  have hstart : (Tree.empty.addMisc prolog.pieces).InOrder s i prolog.entities i := by
    refine .shown ?_
    rw [hnil]
    refine .top (Nat.le_refl i) ?_
    rw [htop, List.reverse_reverse]
    exact hbefore.order i prolog.entities
  obtain ⟨hle, horder⟩ := readRoot_inOrder (readProlog_entitiesBefore hprolog) hstart hroot
  have hclosed := addMisc_levels hlevels
  have hnodes : (t'.addMisc pieces).top.reverse = t'.top.reverse ++ miscNodes pieces := by
    rw [(addMisc_of_nil pieces hclosed).2, List.reverse_append, List.reverse_reverse]
  refine ⟨_, t', j, k, pieces, hnil, htop, hroot, hclosed, horder, hbefore.readMisc hle hmisc,
    by rw [hnodes], fun hsame => ?_⟩
  -- Otherwise there would be only comments and instructions, and no element.
  obtain ⟨n, hn, hnelement⟩ := List.any_eq_true.mp helement
  rw [(addMisc_of_nil pieces hclosed).2, hsame, htop, List.mem_append, List.mem_reverse,
    List.mem_reverse] at hn
  rw [hn.elim isElement_of_mem_miscNodes isElement_of_mem_miscNodes] at hnelement
  cases hnelement

/-- **Order of nodes.** A document has its nodes in order. -/
theorem parse_inOrder {root : Node} {prolog : Prolog} (hparse : parse s = .ok root)
    (hprolog : readProlog s s.size = .ok (prolog, i)) :
    ∃ k, NodesInOrder s i prolog.entities 0 root.children k := by
  obtain ⟨-, t, j, k, pieces, -, -, -, hclosed, horder, hafter, rfl, -⟩ :=
    parse_parts hparse hprolog
  refine ⟨k, ?_⟩
  cases horder with
  | shown levels =>
    rw [hclosed] at levels
    cases levels with
    | top own nodes => exact nodes.append (hafter.order i prolog.entities)
  | hidden levels_eq => exact absurd (levels_eq.symm.trans hclosed) (by simp)

end XmlHighlight
