import XmlHighlight.Proofs.Construction
import XmlHighlight.Proofs.DocumentTokens
import XmlHighlight.Proofs.PrologRuns
import XmlHighlight.Proofs.ValueSize
import XmlHighlight.Scan.Run

/-!
# Layout of a document — what has been read stands in order

A document without entities of its own is read from its beginning to its end, and what has been read
so far stands in order: the nodes of the document, then the start tags of the open elements,
outermost first, each with the nodes in it.

* `LevelsStandAt`, `Xml.Tree.StandsUpTo` — a document under construction that stands up to an
  offset;
* `add_standsUpTo` — every piece of markup keeps it so;
* `readContent_standsUpTo` — and so does all content;
* `parse_standsAt` — the nodes of a document stand in order;
* `spans_in_order` — and so do its spans.
-/

namespace XmlHighlight

open Xml

variable (s : Source)

/-- The nodes of a document and the levels of its open elements stand in order up to offset `hi`. -/
inductive LevelsStandAt (top : List Node) : List Level → Nat → Prop where
  | top {hi : Nat} (nodes : NodesStandAt s 0 top.reverse hi) : LevelsStandAt top [] hi
  | level {hi outer inner nameEnd : Nat} {element : OpenElement} {children : List Node}
      {levels : List Level} {tag : TagRest} (outside : LevelsStandAt top levels outer)
      (le_start : outer ≤ element.start)
      (opened : StartTagStandsAt s s.size element.start nameEnd tag false inner)
      (fit : ValuesFit element.values tag.slots)
      (inside : NodesStandAt s inner children.reverse hi) :
      LevelsStandAt top (⟨element, children⟩ :: levels) hi

/-- A document under construction stands in order up to offset `hi`. -/
def Xml.Tree.StandsUpTo (t : Xml.Tree) (hi : Nat) : Prop := LevelsStandAt s t.top t.levels hi

variable {s} {lo m hi : Nat} {t t' : Xml.Tree}

/-! ### Adding nodes -/

theorem NodesStandAt.mono_left {lo' : Nat} {nodes : List Node} (h : NodesStandAt s lo nodes hi)
    (hle : lo' ≤ lo) : NodesStandAt s lo' nodes hi := by
  induction h with
  | nil le => exact .nil (Nat.le_trans hle le)
  | unpainted kind_eq _ ih => exact .unpainted kind_eq (ih hle)
  | comment le_start room stop_le rest _ =>
    exact .comment (Nat.le_trans hle le_start) room stop_le rest
  | empty le_start opened fit rest _ => exact .empty (Nat.le_trans hle le_start) opened fit rest
  | element le_start opened fit children_at closed stop_eq rest _ _ =>
    exact .element (Nat.le_trans hle le_start) opened fit children_at closed stop_eq rest

/-- Nodes that stand one part behind the other stand there together. -/
theorem NodesStandAt.append {nodes later : List Node} (h : NodesStandAt s lo nodes m)
    (h' : NodesStandAt s m later hi) : NodesStandAt s lo (nodes ++ later) hi := by
  induction h with
  | nil le => exact h'.mono_left le
  | unpainted kind_eq _ ih => exact .unpainted kind_eq (ih h')
  | comment le_start room stop_le _ ih => exact .comment le_start room stop_le (ih h')
  | empty le_start opened fit _ ih => exact .empty le_start opened fit (ih h')
  | element le_start opened fit children_at closed stop_eq _ _ ih =>
    exact .element le_start opened fit children_at closed stop_eq (ih h')

/-- Nodes that stand in the text end before the end of the text. -/
theorem NodesStandAt.within {nodes : List Node} (h : NodesStandAt s lo nodes hi)
    (hlo : lo ≤ s.size) :
    NodesStandAt s lo nodes s.size := by
  induction h with
  | nil => exact .nil hlo
  | unpainted kind_eq _ ih => exact .unpainted kind_eq (ih hlo)
  | comment le_start room stop_le _ ih => exact .comment le_start room stop_le (ih stop_le)
  | empty le_start opened fit _ ih =>
    have hlt := opened.lt
    have hstop := Source.lt_size_of_byte? opened.rest.byte?_stop.2
    exact .empty le_start opened fit (ih (by omega))
  | element le_start opened fit children_at closed stop_eq _ _ ih =>
    have hstop := Source.lt_size_of_byte? closed.closing
    exact .element le_start opened fit children_at closed stop_eq (ih (by omega))

theorem LevelsStandAt.mono {hi' : Nat} {top : List Node} {levels : List Level}
    (h : LevelsStandAt s top levels hi) (hle : hi ≤ hi') : LevelsStandAt s top levels hi' := by
  have hnone : NodesStandAt s hi [] hi' := .nil hle
  cases h with
  | top nodes => exact .top (by simpa using nodes.append hnone)
  | level outside le_start opened fit inside =>
    exact .level outside le_start opened fit (by simpa using inside.append hnone)

/-- Only the nodes and the open elements of a tree count for where it stands. -/
theorem Xml.Tree.StandsUpTo.congr (h : t.StandsUpTo s hi) (htop : t'.top = t.top)
    (hlevels : t'.levels = t.levels) : t'.StandsUpTo s hi := by
  rw [Tree.StandsUpTo, htop, hlevels]
  exact h

theorem Xml.Tree.StandsUpTo.mono {hi' : Nat} (h : t.StandsUpTo s hi) (hle : hi ≤ hi') :
    t.StandsUpTo s hi' :=
  LevelsStandAt.mono h hle

/-- A node that stands behind what has been read can be added. -/
theorem Xml.Tree.StandsUpTo.addNode {node : Node} (h : t.StandsUpTo s m)
    (hnode : NodesStandAt s m [node] hi) : (t.addNode node).StandsUpTo s hi := by
  obtain ⟨top, levels, pending, sawTag, afterText, expansions⟩ := t
  cases h with
  | top nodes =>
    have happend := nodes.append hnode
    rw [← List.reverse_cons] at happend
    exact .top happend
  | level outside le_start opened fit inside =>
    have happend := inside.append hnode
    rw [← List.reverse_cons] at happend
    exact .level outside le_start opened fit happend

theorem Xml.Tree.StandsUpTo.addComment {extent : Extent} (h : t.StandsUpTo s extent.start)
    (room : extent.start + 7 ≤ extent.stop) (stop_le : extent.stop ≤ s.size) :
    (t.addLeaf .comment extent).StandsUpTo s extent.stop :=
  h.addNode (.comment (Nat.le_refl _) room stop_le (.nil (Nat.le_refl _)))

theorem Xml.Tree.StandsUpTo.addInstruction (h : t.StandsUpTo s hi) (extent : Extent) :
    (t.addLeaf .instruction extent).StandsUpTo s hi :=
  h.addNode (.unpainted (.inr rfl) (.nil (Nat.le_refl _)))

theorem Xml.Tree.StandsUpTo.appendText (h : t.StandsUpTo s hi) (extent : Extent) :
    (t.appendText extent).StandsUpTo s hi := by
  unfold Tree.appendText
  split
  · exact h
  · exact h.addNode (.unpainted (.inl rfl) (.nil (Nat.le_refl _)))

/-! ### Attributes -/

/-- An attribute is read from one of those that are written in the tag, and its value is not
    longer. -/
def Xml.Attribute.ComesFrom (attr : Xml.Attribute) (read : AttributeMarkup) : Prop :=
  attr.start = read.nameExtent.start ∧
    attr.value.utf8ByteSize ≤ read.value.stop - read.value.start

/-- An attribute joins those of its tag, or it declares a namespace and joins nothing. -/
theorem attributes_pendingAdd {p p' : Pending} {attr : Xml.Attribute} (h : p.add attr = .ok p') :
    p'.attributes = p.attributes ∨ p'.attributes = p.attributes ++ [attr] := by
  unfold Pending.add at h
  dsimp only at h
  repeat' split at h
  all_goals cases h
  all_goals first | exact .inl rfl | exact .inr rfl

/-- What is pending after the attributes of a tag comes from them, or was pending before. -/
theorem addAttributes_pending {room : Nat} {attrs : List AttributeMarkup}
    (hstop : ∀ attr ∈ attrs, s.isBoundary attr.value.stop = true)
    (h : t.addAttributes s #[] room attrs = .ok t') :
    ∀ a ∈ t'.pending.attributes, a ∈ t.pending.attributes ∨ ∃ read ∈ attrs, a.ComesFrom read := by
  induction attrs generalizing t with
  | nil =>
    cases h
    exact fun a ha => .inl ha
  | cons attr rest ih =>
    rw [Tree.addAttributes, bind_eq_ok] at h
    obtain ⟨value, hvalue, h⟩ := h
    rw [bind_eq_ok] at h
    obtain ⟨pending, hpending, h⟩ := h
    obtain ⟨hfirst, hrest⟩ := List.forall_mem_cons.mp hstop
    -- Without entities a value is not longer than the text it has been read from.
    have hsize : value.text.utf8ByteSize ≤ attr.value.stop - attr.value.start := by
      simpa using normalizeValue_size hfirst hvalue
    intro a ha
    rcases ih hrest h a ha with hmem | ⟨read, hread, hfrom⟩
    · rcases attributes_pendingAdd hpending with heq | heq
      · exact .inl (heq ▸ hmem)
      · rw [show ({ t with pending, expansions := value.expansions } : Tree).pending
          = pending from rfl,
          heq, List.mem_append, List.mem_singleton] at hmem
        rcases hmem with hmem | rfl
        · exact .inl hmem
        · exact .inr ⟨attr, List.mem_cons_self, rfl, hsize⟩
    · exact .inr ⟨read, List.mem_cons_of_mem _ hread, hfrom⟩

/-- Every attribute that has been read stands in one of the slots. -/
theorem exists_slot {slots : List Slot} {read : List AttributeMarkup}
    (h : List.Forall₂ Slot.Holds slots read) : ∀ attr ∈ read, ∃ slot ∈ slots, slot.Holds attr := by
  induction h with
  | nil => exact List.forall_mem_nil _
  | cons first _ ih =>
    refine List.forall_mem_cons.mpr ⟨⟨_, List.mem_cons_self, first⟩, fun attr hattr => ?_⟩
    obtain ⟨slot, hslot, hholds⟩ := ih attr hattr
    exact ⟨slot, List.mem_cons_of_mem _ hslot, hholds⟩

/-- What the attributes of a tag mean fits into the slots of the tag. -/
theorem valuesFit_of_comesFrom {i j : Nat} {slots : List Slot} {places : List AttributePlace}
    {read : List AttributeMarkup} {attributes : List Xml.Attribute}
    (hslots : SlotsStandAt s isSpace i slots places j) (hread : List.Forall₂ Slot.Holds slots read)
    (h : ∀ a ∈ attributes, ∃ r ∈ read, a.ComesFrom r) :
    ValuesFit (attributes.map fun attr => (attr.start, attr.value)) slots := by
  intro slot hslot entry hentry
  obtain ⟨attr, hattr, rfl⟩ := List.mem_map.mp (List.mem_of_find?_eq_some hentry)
  have hstart : attr.start = slot.name.start := by simpa using List.find?_some hentry
  obtain ⟨r, hr, hfrom, hsize⟩ := h attr hattr
  -- The attribute is read from a slot with the same beginning, which can only be this one.
  obtain ⟨other, hother, hholds⟩ := exists_slot hread r hr
  obtain ⟨place, hplace⟩ := hslots.exists_place slot hslot
  obtain ⟨place', hplace'⟩ := hslots.exists_place other hother
  obtain rfl : slot = other := hplace.unique hplace' (by rw [← hstart, hfrom, hholds.1])
  rw [← hholds.2]
  exact hsize

/-! ### Tags -/

/-- Attributes that are cut off go up to the end. -/
theorem le_of_cutOff {stop i k : Nat} {done attrs : List AttributeMarkup}
    (h : readAttributes s stop i done = (attrs, .cutOff, k)) : stop ≤ k := by
  fun_induction readAttributes s stop i done with
  | case7 _ _ _ _ _ _ _ _ _ _ _ _ _ _ ih => exact ih h
  | case8 i done hi =>
    cases h
    exact Nat.not_lt.mp hi
  | case1 | case2 | case3 | case4 | case5 | case6 => cases h

/-- The value of an attribute ends at a boundary. -/
theorem isBoundary_valueStop {i j : Nat} {slots : List Slot} {places : List AttributePlace}
    {read : List AttributeMarkup} (hslots : SlotsStandAt s isSpace i slots places j)
    (hread : List.Forall₂ Slot.Holds slots read) :
    ∀ attr ∈ read, s.isBoundary attr.value.stop = true := by
  intro attr hattr
  obtain ⟨slot, hslot, hholds⟩ := exists_slot hread attr hattr
  obtain ⟨place, hplace⟩ := hslots.exists_place slot hslot
  rw [hholds.2, hplace.value]
  exact Source.isBoundary_of_ascii hplace.closing (lt_of_isQuote hplace.quote)

/-- What a tag means fits into its slots if nothing was pending before it. -/
theorem addAttributes_fit {i j room : Nat} {slots : List Slot} {places : List AttributePlace}
    {attrs : List AttributeMarkup} (hslots : SlotsStandAt s isSpace i slots places j)
    (hread : List.Forall₂ Slot.Holds slots attrs) (h : t.addAttributes s #[] room attrs = .ok t')
    (hpending : t.pending = .empty) :
    ValuesFit (t'.pending.attributes.map fun attr => (attr.start, attr.value)) slots := by
  refine valuesFit_of_comesFrom hslots hread fun attr hattr => ?_
  rcases addAttributes_pending (isBoundary_valueStop hslots hread) h attr hattr with hmem | hfrom
  · rw [hpending] at hmem
    exact absurd hmem List.not_mem_nil
  · exact hfrom

/-- A start tag that is cut off is cut off by the end of the text. -/
theorem le_of_startTag_cutOff {stop i : Nat} {r : Found i StartTag}
    (h : readStartTag s stop i = .ok r)
    (hending : r.value.ending = .cutOff) : stop ≤ r.next := by
  rw [readStartTag, bind_eq_ok] at h
  obtain ⟨⟨name, j, hj⟩, -, h⟩ := h
  cases h
  exact le_of_cutOff (Prod.ext rfl (Prod.ext hending rfl))

/-- A start tag adds an element, or a level for its content. -/
theorem startTag_standsUpTo {i room : Nat} {r : Found i StartTag}
    (hi : s.byte? i = some (byteOf '<'))
    (hread : readStartTag s s.size i = .ok r) (ht : t.StandsUpTo s i)
    (hpending : t.pending = .empty)
    (h : t.startTag s #[] room r.value = .ok t') :
    t'.StandsUpTo s r.next ∧ (r.next < s.size → t'.pending = .empty) := by
  obtain ⟨read, hadded, htop, hlevels, hcases⟩ := startTag_cases h
  have hstands : read.StandsUpTo s i := ht.congr htop hlevels
  rcases hcases with ⟨hending, rfl⟩ | ⟨hending, rfl⟩ | ⟨scope, hending, rfl⟩
  · -- A tag that has been cut off goes up to the end of the text.
    have hle := le_of_startTag_cutOff hread hending
    exact ⟨hstands.mono (Nat.le_of_lt r.lt_next), fun hlt => absurd hlt (Nat.not_lt.mpr hle)⟩
  · obtain ⟨hextent, hle, nameEnd, rest, -, hslots, htag⟩ :=
      readStartTag_standsAt Source.isBoundary_size hi hread (.inr hending)
    have hfit := addAttributes_fit htag.rest.slots hslots hadded hpending
    rw [hending] at htag
    rw [hextent]
    have hnode : NodesStandAt s i [.node (.element read.pending.values) ⟨i, r.next⟩ []] r.next :=
      .empty (Nat.le_refl i) htag hfit (.nil (Nat.le_refl _))
    refine ⟨?_, fun _ => pending_addNode _ _⟩
    refine Tree.StandsUpTo.addNode ?_ hnode
    exact hstands.congr rfl rfl
  · obtain ⟨hextent, hle, nameEnd, rest, -, hslots, htag⟩ :=
      readStartTag_standsAt Source.isBoundary_size hi hread (.inl hending)
    have hfit := addAttributes_fit htag.rest.slots hslots hadded hpending
    rw [hending] at htag
    have hle : i ≤ r.value.extent.start := Nat.le_of_eq (by rw [hextent])
    have hopened : StartTagStandsAt s s.size r.value.extent.start nameEnd rest false r.next := by
      rw [hextent]
      exact htag
    exact ⟨.level hstands hle hopened hfit (.nil (Nat.le_refl _)), fun _ => rfl⟩

/-- The element of an end tag stands behind what comes before its level. -/
theorem endTag_standsUpTo {i : Nat} {r : Found i EndTag} (hi : s.byte? i = some (byteOf '<'))
    (hslash : s.byte? (i + 1) = some (byteOf '/')) (hread : readEndTag s s.size i = .ok r)
    (ht : t.StandsUpTo s i) (h : t.endTag r.value = .ok t') :
    t'.StandsUpTo s r.next ∧ t'.pending = .empty := by
  obtain ⟨nameEnd, close, -, hextent, hnext, -, htag⟩ :=
    readEndTag_standsAt Source.isBoundary_size hi hslash hread
  obtain ⟨element, children, outer, hlevels, -, rfl⟩ := endTag_cases h
  rw [Tree.StandsUpTo, hlevels] at ht
  cases ht with
  | @level _ before inner _ element children levels tag outside le_start opened fit inside =>
    refine ⟨?_, pending_addNode _ _⟩
    rw [hextent, hnext]
    have hnode : NodesStandAt s before
        [.node (.element element.values) ⟨element.start, close + 1⟩ children.reverse] (close + 1) :=
      .element le_start opened fit inside htag rfl (.nil (Nat.le_refl _))
    exact Tree.StandsUpTo.addNode outside hnode

/-! ### Content -/

/-- A run of text is at most one piece of text if there are no entities. -/
theorem addText_eq {expand : Nat → Extent → Xml.Tree → Except SyntaxError Xml.Tree} {whole : Extent}
    {i : Nat} {nonempty : Bool} (h : t.addText s #[] expand whole i nonempty = .ok t') :
    t' = t ∨ t' = t.appendText whole := by
  fun_induction Tree.addText s #[] expand whole i nonempty t with
  | case1 | case3 | case5 => cases h
  | case2 _ _ _ _ _ _ _ _ _ _ ih => exact ih h
  | case4 _ _ _ _ _ _ _ _ _ _ _ entity hentity => simp [findEntity?] at hentity
  | case6 =>
    rw [Except.ok.injEq] at h
    rw [← h]
    split
    · exact .inr rfl
    · exact .inl rfl

/-- **Step.** A piece of markup that stands behind what has been read is added to it. -/
theorem add_standsUpTo {i room : Nat}
    {expand : Nat → Extent → Xml.Tree → Except SyntaxError Xml.Tree}
    {r : Found i Markup} (hread : readMarkup s s.size i = .ok r) (ht : t.StandsUpTo s i)
    (hpending : t.pending = .empty) (h : t.add s #[] expand room r.value = .ok t') :
    t'.StandsUpTo s r.next ∧ (r.next < s.size → t'.pending = .empty) := by
  obtain ⟨value, next, hlt⟩ := r
  -- Only start tags leave something pending, if they are cut off.
  have hadds : Adds s #[] expand room s.size i t t' value next := add_cases hread h
  cases hadds with
  | comment room_le stop_le eq =>
    subst eq
    exact ⟨ht.addComment room_le stop_le, fun _ => (pending_addNode _ _).trans hpending⟩
  | cdata _ eq =>
    subst eq
    exact ⟨(ht.appendText _).mono (Nat.le_of_lt hlt),
      fun _ => (pending_appendText _ _).trans hpending⟩
  | instruction _ eq =>
    subst eq
    exact ⟨(ht.addInstruction _).mono (Nat.le_of_lt hlt),
      fun _ => (pending_addNode _ _).trans hpending⟩
  | endTag opening slash read eq =>
    obtain ⟨hstands, hempty⟩ := endTag_standsUpTo opening slash read ht eq
    exact ⟨hstands, fun _ => hempty⟩
  | startTag opening read eq => exact startTag_standsUpTo opening read ht hpending eq
  | text _ eq =>
    rcases addText_eq eq with rfl | rfl
    · exact ⟨ht.mono (Nat.le_of_lt hlt), fun _ => hpending⟩
    · exact ⟨(ht.appendText _).mono (Nat.le_of_lt hlt),
        fun _ => (pending_appendText _ _).trans hpending⟩

/-- So it keeps a document under construction in order. Nothing is pending as long as there is text
    left. -/
theorem readContent_standsUpTo {room i j depth : Nat}
    {expand : Nat → Extent → Xml.Tree → Except SyntaxError Xml.Tree} (ht : t.StandsUpTo s i)
    (hpending : i < s.size → t.pending = .empty)
    (h : readContent s #[] expand room s.size i depth t = .ok (t', j)) : t'.StandsUpTo s j := by
  obtain ⟨-, hlast, -⟩ := readContent_keeps
    (P := fun i _ t => t.StandsUpTo s i ∧ (i < s.size → t.pending = .empty))
    (fun hi hread hadd ht => add_standsUpTo hread ht.1 (ht.2 hi) hadd) ⟨ht, hpending⟩ h
  exact hlast

/-! ### Around the root element -/

/-- The comments and processing instructions of a prolog stand in order. What else is in it only
    takes up room. -/
theorem standsUpTo_keeps (s : Source) (t : Xml.Tree) :
    PrologKeeps s fun i done => (t.addMisc done.pieces).StandsUpTo s i where
  mono hij ht := ht.mono hij
  comment hread ht := by
    obtain ⟨hextent, hroom, hstop⟩ := readComment_extent hread
    rw [addMisc_comment, hextent]
    exact ht.addComment hroom hstop
  instruction {i done r} _ ht := by
    rw [addMisc_instruction]
    exact (ht.addInstruction _).mono (Nat.le_of_lt r.lt_next)
  entity {i done r} _ ht := ht.mono (Nat.le_of_lt r.lt_next)

/-- The comments of the prolog stand in it one after the other. -/
theorem readProlog_standsUpTo {i : Nat} {prolog : Prolog}
    (h : readProlog s s.size = .ok (prolog, i)) :
    (Tree.empty.addMisc prolog.pieces).StandsUpTo s i :=
  (standsUpTo_keeps s .empty).readProlog (.top (.nil (Nat.le_refl 0))) h

/-! ### The whole document -/

/-- The root element and all it holds stand where they have been read. -/
theorem readRoot_standsUpTo {i j : Nat} (ht : t.StandsUpTo s i) (hpending : t.pending = .empty)
    (h : readRoot s #[] s.size i t = .ok (t', j)) : t'.StandsUpTo s j := by
  rcases readRoot_cases h with ⟨rfl, rfl⟩ | ⟨r, t₁, hi, hread, hstart, hrest⟩
  · exact ht
  · obtain ⟨hstands, hempty⟩ := startTag_standsUpTo hi hread ht hpending hstart
    rcases hrest with ⟨-, hcontent⟩ | ⟨-, rfl, rfl⟩
    · exact readContent_standsUpTo hstands hempty hcontent
    · exact hstands

/-- **Order of nodes.** A document that declares no entities is a tree whose nodes stand in
    order. -/
theorem parse_standsAt {root : Node} {prolog : Prolog} {i : Nat} (hparse : parse s = .ok root)
    (hprolog : readProlog s s.size = .ok (prolog, i)) (hentities : prolog.entities = #[]) :
    ∃ nodes, root = .node .document ⟨0, s.size⟩ nodes ∧ NodesStandAt s 0 nodes s.size := by
  obtain ⟨pieces, j, k, t, hroot, hmisc, hlevels, -, rfl⟩ := parse_cases_of_prolog hparse hprolog
  rw [hentities] at hroot
  have hstands := readRoot_standsUpTo (readProlog_standsUpTo hprolog) (pending_addMisc _ _) hroot
  have hnone : (t.addMisc #[]).StandsUpTo s j := hstands
  have hall := (standsUpTo_keeps s t).readMisc #[] hnone hmisc
  refine ⟨_, rfl, ?_⟩
  -- All elements have been closed, so all nodes lie directly in the document.
  rw [Tree.StandsUpTo, hlevels] at hall
  cases hall with
  | top nodes => exact nodes.within (Nat.zero_le _)

/-! ### Its spans -/

/-- The walk through a document meets its nodes in order. -/
theorem tokensPaintWithin_document (hsize : s.size < UInt64.size) {nodes : List Node}
    (h : NodesStandAt s 0 nodes s.size) :
    TokensPaintWithin s (.build s) 0 s.size
      (tokensOf s (.node .document ⟨0, s.size⟩ nodes)).toList := by
  have hzero := Nat.zero_le s.size
  have hsteps : StepsPaintWithin s 0 s.size
      (visitSiblings [] [.node .document ⟨0, s.size⟩ nodes]) := by
    rw [visitSiblings, visitSiblings, List.append_nil]
    refine stepsPaintWithin_visitNode (Nat.le_refl 0) hzero (Nat.le_refl _) ?_ (h.steps hsize _) ?_
    · exact stepsPaintWithin_singleton (Nat.le_refl 0) fun _ _ _ _ htoken => by cases htoken
    · exact stepsPaintWithin_singleton (Nat.le_refl _) fun _ _ _ _ htoken => by cases htoken
  rw [tokensOf_eq]
  exact (hsteps .origin ⟨0, hzero, rfl⟩).1

/-- The document type of a text, if it has one, declares no entities. -/
def DeclaresNoEntities (s : Source) : Prop :=
  ∀ found, readProlog s s.size = .ok found → found.1.entities = #[]

/-- **Order of spans.** A scan of a document that declares no entities completes. It hands out spans
    that are not empty, that lie in the text, and of which each ends before the next one begins. The
    text is not longer than a 64-bit word can tell. -/
theorem spans_in_order {root : Node} (settings : Settings) (hsize : s.size < UInt64.size)
    (hparse : parse s = .ok root) (hentities : DeclaresNoEntities s) :
    let report := (documentPlan s (.build s) settings).run never
    report.ending = .ok .completed ∧
      (∀ span ∈ report.spans, 0 < span.length ∧ span.start + span.length ≤ s.size) ∧
      report.spans.Pairwise fun a b => a.start + a.length ≤ b.start := by
  intro report
  obtain ⟨⟨prolog, i⟩, hprolog, -⟩ := bind_eq_ok.mp hparse
  obtain ⟨nodes, rfl, hnodes⟩ := parse_standsAt hparse hprolog (hentities _ hprolog)
  have hscan := (tokensPaintWithin_document hsize hnodes).scan settings
  -- Text without a character that shows is not scanned at all.
  by_cases hblank : isBlankText s.text = true
  · have hplan : documentPlan s (.build s) settings
      = ⟨#[.flush ⟨.complete, []⟩], .ok .completed⟩ := by
      rw [documentPlan, if_pos hblank]
    simp only [report, hplan]
    exact ⟨rfl, List.forall_mem_nil _, .nil⟩
  · have hplan : documentPlan s (.build s) settings
        = planOf s (.build s) settings true
          ((tokensOf s (.node .document ⟨0, s.size⟩ nodes)).toList.map .ok) := by
      rw [documentPlan, if_neg hblank, tokens, hparse]
      rfl
    rw [← hplan] at hscan
    obtain ⟨hall, hpairwise⟩ := hscan.2.pairwise
    exact ⟨hscan.1, fun span hspan => (hall span hspan).2, hpairwise⟩

/-- A document with a document type, a reference, a comment, and an element in another. -/
theorem spans_in_order_nested :
    let s := Source.ofText "<!DOCTYPE a [<!ELEMENT a ANY>]><a x = '1&lt;2'><!--c--><b/></a >"
    let report := (documentPlan s (.build s) {}).run never
    s.size < UInt64.size ∧ (∃ root, parse s = .ok root) ∧ DeclaresNoEntities s ∧
      report.ending = .ok .completed ∧
      (∀ span ∈ report.spans, 0 < span.length ∧ span.start + span.length ≤ s.size) ∧
      report.spans.Pairwise fun a b => a.start + a.length ≤ b.start := by
  intro s report
  have hsize : s.size < UInt64.size := by decide +kernel
  have hread : (parse s).isOk = true := by decide +kernel
  have hprolog : (readProlog s s.size).toOption.all (·.1.entities.isEmpty) = true := by
    decide +kernel
  obtain ⟨root, hparse⟩ : ∃ root, parse s = .ok root := by
    cases hroot : parse s with
    | error e =>
      rw [hroot] at hread
      cases hread
    | ok root => exact ⟨root, rfl⟩
  have hentities : DeclaresNoEntities s := by
    intro found hfound
    rw [hfound] at hprolog
    exact Array.isEmpty_iff.mp hprolog
  exact ⟨hsize, ⟨root, hparse⟩, hentities, spans_in_order {} hsize hparse hentities⟩

end XmlHighlight
