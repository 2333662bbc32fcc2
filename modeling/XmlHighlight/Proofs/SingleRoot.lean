import XmlHighlight.Proofs.OrderKept

/-!
# Single root — what lies directly in a document

The first element that lies directly in a document is its root element, which begins behind the
prolog. Others may follow it: an entity may close an element that has been opened around it, so that
the root element may be closed before what is read as its content ends. If no entity of a document
does so, the root element stays open up to its own end tag, and it is the only element that lies
directly in the document.

* `Xml.Tree.BeginsWith`, `markupKeeps_beginsWith` — the first element, which no markup takes away;
* `parse_beginsWith` — the first element of a whole document;
* `EndsOutside` — elements that do not end in an entity;
* `Xml.Tree.ownDepth` — how many elements of the text are open;
* `Xml.Tree.HasRoot`, `Xml.Tree.KeepsRoot` — the root element is open, or nothing else has been put
  behind it;
* `markupKeeps_keepsRoot`, `add_keepsRoot` — every piece of markup keeps it so, in an entity and
  outside;
* `parse_singleRoot` — the only element that lies directly in a document.
-/

namespace XmlHighlight

open Xml

/-! ### The element in front -/

/-- The first element of the text is open, behind the nodes `before`, or it has been closed and
    comes next to them. -/
def Xml.Tree.BeginsWith (R : Nat) (before : List Node) (t : Xml.Tree) : Prop :=
  (∃ inner opened, t.levels = inner ++ [opened] ∧ R ≤ opened.element.start ∧ t.top = before) ∨
    ∃ later n, t.top = later ++ n :: before ∧ n.isElement = true ∧ R ≤ n.extent.start

variable {s : Source} {R i j d d' : Nat} {entities : Array Entity} {before : List Node}
  {depth : Option Nat} {t t' : Xml.Tree} {node : Node}

namespace Xml.Tree.BeginsWith

/-- Only the nodes and the open elements of a tree count for what it begins with. -/
theorem congr (h : t.BeginsWith R before) (htop : t'.top = t.top) (hlevels : t'.levels = t.levels) :
    t'.BeginsWith R before := by
  rw [BeginsWith, htop, hlevels]
  exact h

/-- A node is put into an open element, or behind the first. -/
theorem addNode (h : t.BeginsWith R before) (node : Node) :
    (t.addNode node).BeginsWith R before := by
  rcases h with ⟨inner, opened, hlevels, hstart, htop⟩ | ⟨later, n, htop, hn⟩
  · cases inner with
    | nil =>
      obtain ⟨hsame, hadded⟩ := addNode_of_cons node hlevels
      exact .inl ⟨[], _, hadded, hstart, hsame.trans htop⟩
    | cons innermost inner =>
      obtain ⟨hsame, hadded⟩ := addNode_of_cons node hlevels
      exact .inl ⟨_ :: inner, opened, hadded, hstart, hsame.trans htop⟩
  · cases hlevels : t.levels with
    | nil =>
      obtain ⟨hadded, -⟩ := addNode_of_nil node hlevels
      exact .inr ⟨node :: later, n, by rw [hadded, htop, List.cons_append], hn⟩
    | cons level outer => exact .inr ⟨later, n, (addNode_of_cons node hlevels).1.trans htop, hn⟩

/-- An element can be opened inside the first one, or behind it. -/
theorem openElement {level : Level} (h : t.BeginsWith R before) (htop : t'.top = t.top)
    (hopened : t'.levels = level :: t.levels) : t'.BeginsWith R before := by
  rcases h with ⟨inner, opened, hlevels, hstart, hsame⟩ | ⟨later, n, hsame, hn⟩
  · exact .inl ⟨level :: inner, opened, by rw [hopened, hlevels, List.cons_append], hstart,
      htop.trans hsame⟩
  · exact .inr ⟨later, n, htop.trans hsame, hn⟩

/-- The first element can be closed, or another one. -/
theorem closeElement {level : Level} {outer : List Level} (h : t.BeginsWith R before)
    (hclosed : t.levels = level :: outer) (hsame : t'.top = t.top) (hrest : t'.levels = outer)
    (helement : node.isElement = true) (hnode : node.extent.start = level.element.start) :
    (t'.addNode node).BeginsWith R before := by
  rcases h with ⟨inner, opened, hlevels, hstart, htop⟩ | ⟨later, n, htop, hn⟩
  · rw [hclosed] at hlevels
    cases inner with
    | nil =>
      obtain ⟨rfl, rfl⟩ := List.cons.inj hlevels
      obtain ⟨hadded, -⟩ := addNode_of_nil node hrest
      exact .inr ⟨[], node, by rw [hadded, hsame, htop, List.nil_append], helement, hnode ▸ hstart⟩
    | cons innermost inner =>
      obtain ⟨rfl, rfl⟩ := List.cons.inj hlevels
      have hopen : t'.BeginsWith R before := .inl ⟨inner, opened, hrest, hstart, hsame.trans htop⟩
      exact hopen.addNode node
  · have hbehind : t'.BeginsWith R before := .inr ⟨later, n, hsame.trans htop, hn⟩
    exact hbehind.addNode node

end Xml.Tree.BeginsWith

/-- A start tag leaves the first element where it is. -/
theorem startTag_beginsWith {room : Nat} {tag : StartTag} (ht : t.BeginsWith R before)
    (h : t.startTag s entities room tag = .ok t') : t'.BeginsWith R before := by
  obtain ⟨read, -, htop, hlevels, hcases⟩ := startTag_cases h
  have hbefore : read.BeginsWith R before := ht.congr htop hlevels
  rcases hcases with ⟨-, rfl⟩ | ⟨-, rfl⟩ | ⟨scope, -, rfl⟩
  · exact hbefore
  · have hsettled : ({ read with pending := .empty, afterText := false } : Tree).BeginsWith R
        before := hbefore.congr rfl rfl
    exact hsettled.addNode _
  · exact hbefore.openElement rfl rfl

/-- **Step.** No piece of markup takes the first element away, wherever it stands. -/
theorem markupKeeps_beginsWith (s : Source) (entities : Array Entity) (R : Nat)
    (before : List Node) :
    MarkupKeeps s entities (fun _ _ => True) (Tree.BeginsWith R before) where
  congr ht htop hlevels := ht.congr htop hlevels
  leaf _ _ ht := ht.addNode _
  startTag _ _ _ ht h := startTag_beginsWith ht h
  endTag _ _ _ _ ht h := by
    obtain ⟨element, children, outer, hlevels, -, rfl⟩ := endTag_cases h
    refine ht.closeElement hlevels ?_ ?_ ?_ ?_ <;> rfl

/-- What is read as the root element of a document is nothing, or an element that is a single tag,
    or the content of an element. -/
theorem readRoot_reads (hlevels : t.levels = [])
    (h : readRoot s entities s.size i t = .ok (t', j)) :
    t'.top = t.top ∨
      (t'.levels = [] ∧ ∃ n, t'.top = n :: t.top ∧ n.isElement = true ∧ i ≤ n.extent.start) ∨
      ∃ (opened : Xml.Tree) (level : Level) (k : Nat), i ≤ k ∧ opened.top = t.top ∧
        opened.levels = [level] ∧ i ≤ level.element.start ∧
        content s entities maxDepth s.size k opened = .ok (t', j) := by
  rcases readRoot_cases h with ⟨rfl, rfl⟩ | ⟨r, t₁, -, hread, hstart, hrest⟩
  · exact .inl rfl
  have hat : r.value.extent.start = i := readStartTag_start hread
  obtain ⟨read, -, htop, hsame, hcases⟩ := startTag_cases hstart
  rw [hlevels] at hsame
  rcases hrest with ⟨hopened, hcontent⟩ | ⟨hnot, rfl, rfl⟩
  · rcases hcases with ⟨hending, -⟩ | ⟨hending, -⟩ | ⟨scope, -, rfl⟩
    · cases hending.symm.trans hopened
    · cases hending.symm.trans hopened
    · refine .inr (.inr ⟨_, ⟨⟨r.value.name, r.value.extent.start, read.pending.values, scope⟩, []⟩,
        r.next, Nat.le_of_lt r.lt_next, ?_, ?_, Nat.le_of_eq hat.symm, hcontent⟩)
      · exact htop
      · exact congrArg _ hsame
  · rcases hcases with ⟨-, rfl⟩ | ⟨-, rfl⟩ | ⟨scope, hending, -⟩
    · exact .inl htop
    · obtain ⟨hadded, hnil⟩ := addNode_of_nil
        (t := { read with pending := .empty, afterText := false })
        (.node (.element read.pending.values) r.value.extent []) hsame
      exact .inr (.inl ⟨hnil, _, hadded.trans (congrArg _ htop), rfl, Nat.le_of_eq hat.symm⟩)
    · exact absurd hending hnot

/-- A root element that is read comes next to what stands before it. -/
theorem readRoot_beginsWith (hlevels : t.levels = [])
    (h : readRoot s entities s.size i t = .ok (t', j)) (hne : t'.top ≠ t.top) :
    t'.BeginsWith i t.top := by
  rcases (readRoot_reads hlevels h).resolve_left hne with
    ⟨-, n, htop, hn⟩ | ⟨opened, level, k, -, htop, hopened, hstart, hcontent⟩
  · exact .inr ⟨[], n, htop, hn⟩
  · have hkeeps := markupKeeps_beginsWith s entities i t.top
    exact content_keeps hkeeps (expandIn_keeps hkeeps (fun _ _ _ _ _ => trivial) _)
      (fun _ _ _ => trivial) (.inl ⟨[], level, hopened, hstart, htop⟩) hcontent

/-- **First element.** The first of the elements that lie directly in a document begins behind the
    prolog. -/
theorem parse_beginsWith {root : Node} {prolog : Prolog} (hparse : parse s = .ok root)
    (hprolog : readProlog s s.size = .ok (prolog, i)) :
    ∃ before n after, root.children = before ++ n :: after ∧
      (∀ m ∈ before, m.isElement = false) ∧ n.isElement = true ∧ i ≤ n.extent.start := by
  obtain ⟨t, t', j, k, pieces, hlevels, htop, hroot, hclosed, -, -, rfl, hne⟩ :=
    parse_parts hparse hprolog
  rcases readRoot_beginsWith hlevels hroot hne with
    ⟨inner, opened, hopen, -⟩ | ⟨later, n, hn, hfirst⟩
  · rw [hclosed] at hopen
    exact absurd hopen.symm (by simp)
  · refine ⟨miscNodes prolog.pieces, n, later.reverse ++ miscNodes pieces, ?_,
      fun m => isElement_of_mem_miscNodes, hfirst⟩
    show t'.top.reverse ++ miscNodes pieces = _
    rw [hn, htop]
    simp

/-! ### Elements that no entity closes -/

/-- An element that begins outside the values of entities ends outside of them. -/
def EndsOutside (entities : Array Entity) (n : Node) : Prop :=
  n.isElement = true → ¬ InEntity entities n.extent.start → ¬ InEntity entities (n.extent.stop - 1)

instance (entities : Array Entity) (n : Node) : Decidable (EndsOutside entities n) :=
  inferInstanceAs (Decidable (_ → ¬ _ → ¬ _))

/-- No element of a document under construction ends in an entity if it begins outside of them. -/
def Xml.Tree.Unbroken (entities : Array Entity) (t : Xml.Tree) : Prop :=
  t.Everywhere (EndsOutside entities) fun _ => True

/-- How many of the open elements begin at offset `R` or behind it. The others have been opened by
    entities. -/
def Xml.Tree.ownDepth (R : Nat) (t : Xml.Tree) : Nat :=
  t.levels.countP fun level => decide (R ≤ level.element.start)

/-- The root element is open, behind the nodes `before`, or it has been closed and is the last of
    the nodes that lie directly in the document. -/
def Xml.Tree.HasRoot (R : Nat) (before : List Node) (t : Xml.Tree) : Prop :=
  t.levels ≠ [] ∧ t.top = before ∨
    t.levels = [] ∧ ∃ n, t.top = n :: before ∧ n.isElement = true ∧ R ≤ n.extent.start

/-- A document under construction has a root element, in which more than `depth` elements of the
    text are open, unless an entity has closed an element around it. -/
def Xml.Tree.KeepsRoot (R : Nat) (entities : Array Entity) (before : List Node) (depth : Option Nat)
    (t : Xml.Tree) : Prop :=
  t.Unbroken entities → (∀ d ∈ depth, d < t.ownDepth R) ∧ t.HasRoot R before

@[simp] theorem ownDepth_addNode (t : Xml.Tree) (node : Node) :
    (t.addNode node).ownDepth R = t.ownDepth R := by
  unfold Tree.addNode Tree.ownDepth
  split
  · rfl
  · next h => rw [h, List.countP_cons, List.countP_cons]

/-- An element is open if one that counts is. -/
theorem levels_ne_nil (h : d < t.ownDepth R) : t.levels ≠ [] := by
  intro hnil
  rw [Tree.ownDepth, hnil] at h
  exact absurd h (Nat.not_lt_zero d)

/-- As long as an element is open, the root element has not been closed. -/
theorem Xml.Tree.HasRoot.top_eq (h : t.HasRoot R before) (hlevels : t.levels ≠ []) :
    t.top = before := by
  rcases h with ⟨-, htop⟩ | ⟨hnil, -⟩
  · exact htop
  · exact absurd hnil hlevels

/-- A node that is put into an open element does not lie directly in the document. -/
theorem hasRoot_addNode (hlevels : t.levels ≠ []) (htop : t.top = before) (node : Node) :
    (t.addNode node).HasRoot R before := by
  obtain ⟨level, outer, hcons⟩ := List.exists_cons_of_ne_nil hlevels
  obtain ⟨hsame, hadded⟩ := addNode_of_cons node hcons
  refine .inl ⟨?_, hsame.trans htop⟩
  rw [hadded]
  exact List.cons_ne_nil _ _

namespace Xml.Tree.KeepsRoot

/-- Only the nodes and the open elements of a tree count for its root. -/
theorem congr (h : t.KeepsRoot R entities before depth) (htop : t'.top = t.top)
    (hlevels : t'.levels = t.levels) : t'.KeepsRoot R entities before depth := by
  intro hunbroken
  obtain ⟨hdepth, hroot⟩ := h (hunbroken.congr htop.symm hlevels.symm)
  have hsame : t'.ownDepth R = t.ownDepth R := congrArg (List.countP _) hlevels
  rw [hsame, HasRoot, hlevels, htop]
  exact ⟨hdepth, hroot⟩

/-- A node inside the root leaves the root as it is. -/
theorem addNode (h : t.KeepsRoot R entities before (some d)) (node : Node) :
    (t.addNode node).KeepsRoot R entities before (some d) := by
  intro hunbroken
  obtain ⟨hdepth, hroot⟩ := h (everywhere_addNode.mp hunbroken).1
  have hlevels := levels_ne_nil (hdepth d rfl)
  rw [ownDepth_addNode]
  exact ⟨hdepth, hasRoot_addNode hlevels (hroot.top_eq hlevels) node⟩

end Xml.Tree.KeepsRoot

/-! ### Tags -/

/-- A start tag adds an element, or opens one. If that begins in the text, one more of those is
    open. -/
theorem startTag_keepsRoot {room : Nat} {tag : StartTag}
    (ht : t.KeepsRoot R entities before (some d)) (h : t.startTag s entities room tag = .ok t')
    (hdepth : d' ≤ d ∨ d' ≤ d + 1 ∧ tag.ending = .opened ∧ R ≤ tag.extent.start) :
    t'.KeepsRoot R entities before (some d') := by
  have hweaken : ∀ {t : Xml.Tree}, t.KeepsRoot R entities before (some d) → d' ≤ d →
      t.KeepsRoot R entities before (some d') := by
    intro t ht hle hunbroken
    obtain ⟨hdepth, hroot⟩ := ht hunbroken
    refine ⟨?_, hroot⟩
    rintro _ ⟨⟩
    exact Nat.lt_of_le_of_lt hle (hdepth d rfl)
  obtain ⟨read, -, htop, hlevels, hcases⟩ := startTag_cases h
  have hbefore : read.KeepsRoot R entities before (some d) := ht.congr htop hlevels
  rcases hcases with ⟨hending, rfl⟩ | ⟨hending, rfl⟩ | ⟨scope, hending, rfl⟩
  · refine hweaken hbefore (hdepth.resolve_right ?_)
    simp [hending]
  · have hsettled : ({ read with pending := .empty, afterText := false } : Tree).KeepsRoot R
      entities
        before (some d) := hbefore.congr rfl rfl
    refine hweaken (hsettled.addNode _) (hdepth.resolve_right ?_)
    simp [hending]
  · intro hunbroken
    obtain ⟨hread, hroot⟩ := hbefore ((everywhere_open read _ _ _).mp hunbroken).1
    have hlt := hread d rfl
    refine ⟨?_, .inl ⟨List.cons_ne_nil _ _, hroot.top_eq (levels_ne_nil hlt)⟩⟩
    rintro _ ⟨⟩
    rw [Tree.ownDepth, List.countP_cons]
    show d' < read.ownDepth R + _
    -- The new element counts only if it was opened in the source and not in an entity.
    rcases hdepth with hle | ⟨hle, -, hstart⟩
    · omega
    · rw [if_pos (by simpa using hstart)]
      omega

/-- An end tag closes the innermost element. If that is the root element, it has been the only
    element of the text that was open. -/
theorem hasRoot_endTag {element : OpenElement} {children : List Node} {outer : List Level}
    (hlevels : t.levels = ⟨element, children⟩ :: outer) (hdepth : 0 < t.ownDepth R)
    (hroot : t.HasRoot R before) (hsame : t'.top = t.top) (hrest : t'.levels = outer)
    {values : List (Nat × String)} {stop : Nat} :
    (t'.addNode (.node (.element values) ⟨element.start, stop⟩ children.reverse)).HasRoot R
      before := by
  have htop := hsame.trans (hroot.top_eq (levels_ne_nil hdepth))
  cases outer with
  | nil =>
    obtain ⟨hadded, hnil⟩ := addNode_of_nil
      (.node (.element values) ⟨element.start, stop⟩ children.reverse) hrest
    refine .inr ⟨hnil, _, hadded.trans (congrArg _ htop), rfl, ?_⟩
    rw [Tree.ownDepth, hlevels, List.countP_pos_iff] at hdepth
    obtain ⟨level, hlevel, hstart⟩ := hdepth
    obtain rfl := List.mem_singleton.mp hlevel
    exact of_decide_eq_true hstart
  | cons level outer => exact hasRoot_addNode (by rw [hrest]; exact List.cons_ne_nil _ _) htop _

/-- An end tag in an entity closes an element that comes out of one, or breaks the document. -/
theorem endTag_keepsRoot {tag : EndTag} (hentities : EntitiesBefore s R entities)
    (hstop : InEntity entities (tag.extent.stop - 1)) (ht : t.KeepsRoot R entities before (some d))
    (h : t.endTag tag = .ok t') : t'.KeepsRoot R entities before (some d) := by
  obtain ⟨element, children, outer, hlevels, -, rfl⟩ := endTag_cases h
  intro hunbroken
  obtain ⟨hall, hends⟩ := (everywhere_close hlevels trivial _ _ _ _).mp hunbroken
  obtain ⟨hdepth, hroot⟩ := ht hall
  -- Otherwise the element begins outside of all entities and ends in this one.
  have hlt : element.start < R := by
    by_contra hle
    exact hends rfl (hentities.not_inEntity (Nat.not_lt.mp hle)) hstop
  refine ⟨?_, ?_⟩
  · rw [Tree.ownDepth, hlevels, List.countP_cons_of_neg (by simpa using hlt)] at hdepth
    rw [ownDepth_addNode]
    exact hdepth
  · refine hasRoot_endTag hlevels (Nat.zero_lt_of_lt (hdepth d rfl)) hroot ?_ ?_
    · rfl
    · rfl

/-- An end tag outside of entities closes at most one element of the text. -/
theorem endTag_keepsRoot_outside {tag : EndTag} (ht : t.KeepsRoot R entities before (some d))
    (h : t.endTag tag = .ok t') :
    t'.KeepsRoot R entities before (depthAfter d (.endTag tag)) := by
  obtain ⟨element, children, outer, hlevels, -, rfl⟩ := endTag_cases h
  intro hunbroken
  obtain ⟨hdepth, hroot⟩ := ht ((everywhere_close hlevels trivial _ _ _ _).mp hunbroken).1
  have hlt := hdepth d rfl
  refine ⟨fun depth hdepthAfter => ?_, ?_⟩
  · -- One level is taken off, and it counted for at most one.
    have hle : t.ownDepth R ≤ outer.countP (fun level => decide (R ≤ level.element.start)) + 1 := by
      rw [Tree.ownDepth, hlevels, List.countP_cons]
      split <;> omega
    rw [ownDepth_addNode]
    show depth < outer.countP fun level => decide (R ≤ level.element.start)
    rw [depthAfter] at hdepthAfter
    split at hdepthAfter
    · cases hdepthAfter
    · cases hdepthAfter
      omega
  · refine hasRoot_endTag hlevels (Nat.zero_lt_of_lt hlt) hroot ?_ ?_
    · rfl
    · rfl

/-! ### Content -/

/-- **Step.** No piece of markup in an entity closes an element of the text. -/
theorem markupKeeps_keepsRoot (hentities : EntitiesBefore s R entities) (before : List Node)
    (d : Nat) :
    MarkupKeeps s entities (EntityPlace entities) (Tree.KeepsRoot R entities before (some d)) where
  congr ht htop hlevels := ht.congr htop hlevels
  leaf _ _ ht := ht.addNode _
  startTag _ _ _ ht h := startTag_keepsRoot ht h (.inl (Nat.le_refl d))
  endTag hplace hi hslash hread ht h :=
    endTag_keepsRoot hentities (inEntity_of_readEndTag hentities hplace hi hslash hread) ht h

/-- **Step.** A piece of markup outside of entities keeps count of the elements that are open. -/
theorem add_keepsRoot {room stop : Nat}
    {expand : Nat → Extent → Xml.Tree → Except SyntaxError Xml.Tree} {r : Found i Markup}
    (hexpand : ExpandKeeps entities (Tree.KeepsRoot R entities before (some d)) expand) (hR : R ≤ i)
    (hread : readMarkup s stop i = .ok r) (ht : t.KeepsRoot R entities before (some d))
    (h : t.add s entities expand room r.value = .ok t') :
    t'.KeepsRoot R entities before (depthAfter d r.value) := by
  obtain ⟨value, next, hlt⟩ := r
  have htext : ∀ {t : Xml.Tree} {extent : Extent}, t.KeepsRoot R entities before (some d) →
      (t.appendText extent).KeepsRoot R entities before (some d) := by
    intro t extent ht
    unfold Tree.appendText
    split
    · exact ht
    · exact (ht.addNode _).congr rfl rfl
  have hadds : Adds s entities expand room stop i t t' value next := add_cases hread h
  cases hadds with
  | comment _ _ eq | instruction _ eq => exact eq ▸ (ht.addNode _).congr rfl rfl
  | cdata _ eq => exact eq ▸ htext ht
  | endTag _ _ _ eq => exact endTag_keepsRoot_outside ht eq
  | @startTag r _ read eq =>
    have hstart : R ≤ r.value.extent.start := (readStartTag_start read).symm ▸ hR
    rw [depthAfter]
    split
    · next hending => exact startTag_keepsRoot ht eq (.inr ⟨Nat.le_refl _, hending, hstart⟩)
    · exact startTag_keepsRoot ht eq (.inl (Nat.le_refl d))
  | text _ eq => exact addText_keeps hexpand htext ht eq

/-- **Run.** Content ends with the end tag of the root element, or before that. -/
theorem content_keepsRoot {room stop : Nat} (hentities : EntitiesBefore s R entities) (hR : R ≤ i)
    (ht : t.KeepsRoot R entities before (some 0))
    (h : content s entities room stop i t = .ok (t', j)) :
    ∃ last, t'.KeepsRoot R entities before last := by
  have hexpand : ∀ d, ExpandKeeps entities (Tree.KeepsRoot R entities before (some d))
      (expandIn s entities room) := fun d =>
    expandIn_keeps (markupKeeps_keepsRoot hentities before d)
      (fun entity hmem k hstart hstop => ⟨entity, hmem, rfl, hstart, hstop⟩) room
  rw [content_eq] at h
  obtain ⟨last, -, hlast⟩ := readContent_keeps
    (P := fun i depth t => R ≤ i ∧ t.KeepsRoot R entities before depth)
    (fun _ hread hadd ht => ⟨Nat.le_trans ht.1 (Nat.le_of_lt (Found.lt_next _)),
      add_keepsRoot (hexpand _) ht.1 hread ht.2 hadd⟩) ⟨hR, ht⟩ h
  exact ⟨last, hlast⟩

/-! ### The whole document -/

/-- A root element that is read stays the last of what lies directly in the document. -/
theorem readRoot_keepsRoot (hentities : EntitiesBefore s i entities) (hlevels : t.levels = [])
    (h : readRoot s entities s.size i t = .ok (t', j)) (hne : t'.top ≠ t.top)
    (hunbroken : t'.Unbroken entities) : t'.HasRoot i t.top := by
  rcases (readRoot_reads hlevels h).resolve_left hne with
    ⟨hnil, hroot⟩ | ⟨opened, level, k, hle, htop, hopened, hstart, hcontent⟩
  · exact .inr ⟨hnil, hroot⟩
  · -- The root is open now, at depth zero of the source, and its content is read.
    have hkeeps : opened.KeepsRoot i entities t.top (some 0) := by
      refine fun _ => ⟨?_, .inl ⟨by rw [hopened]; exact List.cons_ne_nil _ _, htop⟩⟩
      rintro _ ⟨⟩
      rw [Tree.ownDepth, hopened, List.countP_cons_of_pos (by simpa using hstart)]
      exact Nat.succ_pos _
    obtain ⟨last, hlast⟩ := content_keepsRoot hentities hle hkeeps hcontent
    exact (hlast hunbroken).2

/-- The root element of such a document has comments and instructions before and behind it. -/
theorem parse_hasRoot {root : Node} {prolog : Prolog} (hparse : parse s = .ok root)
    (hprolog : readProlog s s.size = .ok (prolog, i))
    (hunbroken : root.Everywhere (EndsOutside prolog.entities)) :
    ∃ before n after, root.children = before ++ n :: after ∧ n.isElement = true ∧
      i ≤ n.extent.start ∧ ∀ m ∈ before ++ after,
        m.isElement = false ∧ ¬ InEntity prolog.entities m.extent.start := by
  obtain ⟨t, t', j, k, pieces, hlevels, htop, hroot, hclosed, -, hafter, rfl, hne⟩ :=
    parse_parts hparse hprolog
  have hentities := readProlog_entitiesBefore hprolog
  have hbefore := readProlog_inOrder hprolog
  have hleaves : ∀ m ∈ miscNodes prolog.pieces ++ miscNodes pieces,
      m.isElement = false ∧ ¬ InEntity prolog.entities m.extent.start := by
    intro m hm
    rcases List.mem_append.mp hm with hm | hm
    · exact ⟨isElement_of_mem_miscNodes hm, (hbefore.outside m hm).2⟩
    · exact ⟨isElement_of_mem_miscNodes hm, (hafter.outside m hm).2⟩
  have htree : t'.Unbroken prolog.entities := by
    refine ⟨fun n hn => (everywhere_node_iff.mp hunbroken).2 n ?_, ?_⟩
    · exact List.mem_append_left _ (List.mem_reverse.mpr hn)
    · rw [hclosed]
      exact List.forall_mem_nil _
  rcases readRoot_keepsRoot hentities hlevels hroot hne htree with
    ⟨hopen, -⟩ | ⟨-, n, hn, hnelement, hnstart⟩
  · exact absurd hclosed hopen
  · refine ⟨miscNodes prolog.pieces, n, miscNodes pieces, ?_, hnelement, hnstart, hleaves⟩
    show t'.top.reverse ++ miscNodes pieces = _
    rw [hn, htop, List.reverse_cons, List.reverse_reverse, List.append_assoc,
      List.singleton_append]

/-- **Single root.** If no element of a document that begins outside of the entities ends in one, no
    node that comes out of an entity lies directly in the document, and only one element does. It
    ends outside of the entities, too. -/
theorem parse_singleRoot {root : Node} {prolog : Prolog} (hparse : parse s = .ok root)
    (hprolog : readProlog s s.size = .ok (prolog, i))
    (hunbroken : root.Everywhere (EndsOutside prolog.entities)) :
    (∀ n ∈ root.children, ¬ InEntity prolog.entities n.extent.start) ∧
      ∃ n, root.children.filter Node.isElement = [n] ∧
        ¬ InEntity prolog.entities (n.extent.stop - 1) := by
  obtain ⟨before, n, after, hchildren, helement, hstart, hleaves⟩ :=
    parse_hasRoot hparse hprolog hunbroken
  have houtside := (readProlog_entitiesBefore hprolog).not_inEntity hstart
  obtain ⟨hbefore, hafter⟩ := List.forall_mem_append.mp hleaves
  refine ⟨fun m hm => ?_, n, ?_, ?_⟩
  · rw [hchildren, List.mem_append, List.mem_cons] at hm
    rcases hm with hm | rfl | hm
    · exact (hbefore m hm).2
    · exact houtside
    · exact (hafter m hm).2
  · rw [hchildren, List.filter_append, List.filter_cons_of_pos helement,
      List.filter_eq_nil_iff.mpr fun m hm => by simp [(hbefore m hm).1],
      List.filter_eq_nil_iff.mpr fun m hm => by simp [(hafter m hm).1]]
    rfl
  · have hmem : n ∈ root.children := by
      rw [hchildren]
      exact List.mem_append_right _ List.mem_cons_self
    -- The root starts outside the entities, so it ends there too.
    cases hunbroken with
    | node _ inside =>
      cases inside n hmem with
      | node here => exact here helement houtside

end XmlHighlight
