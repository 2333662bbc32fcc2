import XmlHighlight.Proofs.Layout
import XmlHighlight.Xml.Document

/-!
# Construction — what reading a document comes to

A document is put together piece by piece. Most pieces add a node, a start tag may open an element,
and an end tag closes one; what a text adds is up to the entities in it. Everything that is said of
documents later on is said of these few cases.

* `startTag_cases`, `endTag_cases` — what a tag comes to;
* `Adds`, `add_cases` — what any piece of markup comes to;
* `readContent_keeps` — what every piece of markup keeps is kept by all content;
* `readRoot_cases`, `parse_cases`, `parse_cases_of_prolog` — what a root element and a whole
  document come to.
-/

namespace XmlHighlight

open Xml

variable {s : Source} {t t' : Xml.Tree} {level : Level} {outer : List Level}

/-! ### Adding nodes -/

/-- With no element open, a node is added beside the root. -/
theorem addNode_of_nil (node : Node) (h : t.levels = []) :
    (t.addNode node).top = node :: t.top ∧ (t.addNode node).levels = [] := by
  rw [Tree.addNode, h]
  exact ⟨rfl, rfl⟩

/-- With an element open, a node is added to its children. -/
theorem addNode_of_cons (node : Node) (h : t.levels = level :: outer) :
    (t.addNode node).top = t.top ∧
      (t.addNode node).levels = { level with children := node :: level.children } :: outer := by
  rw [Tree.addNode, h]
  exact ⟨rfl, rfl⟩

theorem pending_addNode (t : Xml.Tree) (node : Node) : (t.addNode node).pending = t.pending := by
  unfold Tree.addNode
  split <;> rfl

theorem pending_appendText (t : Xml.Tree) (extent : Extent) :
    (t.appendText extent).pending = t.pending := by
  unfold Tree.appendText
  split
  · rfl
  · exact pending_addNode _ _

/-! ### Tags -/

/-- Reading the attributes of a tag changes nothing but what is pending. -/
theorem addAttributes_levels {entities : Array Entity} {room : Nat} {attrs : List AttributeMarkup}
    (h : t.addAttributes s entities room attrs = .ok t') :
    t'.top = t.top ∧ t'.levels = t.levels := by
  induction attrs generalizing t with
  | nil =>
    cases h
    exact ⟨rfl, rfl⟩
  | cons attr rest ih =>
    rw [Tree.addAttributes, bind_eq_ok] at h
    obtain ⟨value, -, h⟩ := h
    rw [bind_eq_ok] at h
    obtain ⟨pending, -, h⟩ := h
    have hrest := ih h
    exact hrest

/-- Settling a start tag takes its attributes away from the tree and leaves all else. -/
theorem settle_eq {scope : Scope} {values : List (Nat × String)}
    (h : t.settle = .ok (t', scope, values)) :
    t' = { t with pending := .empty, afterText := false } ∧
      values = t.pending.attributes.map fun attr => (attr.start, attr.value) := by
  rw [Tree.settle, bind_eq_ok] at h
  obtain ⟨_, -, h⟩ := h
  cases h
  exact ⟨rfl, rfl⟩

/-- What is done with the name of a tag after its attributes have been settled. -/
theorem settle_bind_eq_ok {qualifier : String} {i : Nat}
    {f : Tree → List (Nat × String) → Scope → Tree}
    (h : (do
      let (t, scope, values) ← t.settle
      let _ ← resolvePrefix scope qualifier i
      return f t values scope) = .ok t') :
    ∃ scope, t' = f { t with pending := .empty, afterText := false }
      (t.pending.attributes.map fun attr => (attr.start, attr.value)) scope := by
  rw [bind_eq_ok] at h
  obtain ⟨⟨settled, scope, values⟩, hsettle, h⟩ := h
  rw [bind_eq_ok] at h
  obtain ⟨_, -, h⟩ := h
  cases h
  obtain ⟨rfl, rfl⟩ := settle_eq hsettle
  exact ⟨scope, rfl⟩

/-- The values of the attributes that are pending. -/
def Xml.Pending.values (pending : Pending) : List (Nat × String) :=
  pending.attributes.map fun attr => (attr.start, attr.value)

/-- A start tag whose attributes have been read adds an element, or a level for its content, or is
    cut off. -/
theorem startTag_cases {entities : Array Entity} {room : Nat} {tag : StartTag}
    (h : t.startTag s entities room tag = .ok t') :
    ∃ read : Xml.Tree,
      Tree.addAttributes s entities room { t with afterText := false, sawTag := true }
        tag.attributes
        = .ok read ∧ read.top = t.top ∧ read.levels = t.levels ∧
      (tag.ending = .cutOff ∧ t' = read ∨
        tag.ending = .selfClosed ∧
          t' = Tree.addNode { read with pending := .empty, afterText := false }
            (.node (.element read.pending.values) tag.extent []) ∨
        ∃ scope, tag.ending = .opened ∧
          t' = { read with
            pending := .empty, afterText := false
            levels := ⟨⟨tag.name, tag.extent.start, read.pending.values, scope⟩, []⟩
            :: read.levels }) := by
  rw [Tree.startTag] at h
  split at h
  · cases h
  · rw [bind_eq_ok] at h
    obtain ⟨read, hread, h⟩ := h
    obtain ⟨htop, hlevels⟩ := addAttributes_levels hread
    refine ⟨read, hread, htop, hlevels, ?_⟩
    -- Only a tag that has come to its end settles its attributes.
    cases hending : tag.ending with
    | faulty e =>
      rw [hending] at h
      cases h
    | cutOff =>
      rw [hending] at h
      cases h
      exact .inl ⟨rfl, rfl⟩
    | selfClosed =>
      rw [hending] at h
      obtain ⟨scope, rfl⟩ := settle_bind_eq_ok
        (f := fun t values _ => t.addNode (.node (.element values) tag.extent [])) h
      exact .inr (.inl ⟨rfl, rfl⟩)
    | opened =>
      rw [hending] at h
      obtain ⟨scope, rfl⟩ := settle_bind_eq_ok (f := fun t values scope =>
        { t with levels := ⟨⟨tag.name, tag.extent.start, values, scope⟩, []⟩ :: t.levels }) h
      exact .inr (.inr ⟨scope, rfl, rfl⟩)

/-- An end tag makes an element of the innermost level. -/
theorem endTag_cases {tag : EndTag} (h : t.endTag tag = .ok t') :
    ∃ (element : OpenElement) (children : List Node) (outer : List Level),
      t.levels = ⟨element, children⟩ :: outer ∧ (element.name == tag.name) = true ∧
      t' = Tree.addNode { t with pending := .empty, afterText := false, levels := outer }
        (.node (.element element.values) ⟨element.start, tag.extent.stop⟩ children.reverse) := by
  rw [Tree.endTag] at h
  split at h
  · cases h
  · rw [bind_eq_ok] at h
    obtain ⟨⟨settled, scope, values⟩, hsettle, h⟩ := h
    -- Settling attributes leaves the levels alone.
    obtain ⟨rfl, -⟩ := settle_eq hsettle
    obtain ⟨top, levels, pending, sawTag, afterText, expansions⟩ := t
    cases levels with
    | nil => cases h
    | cons level outer =>
      obtain ⟨element, children⟩ := level
      dsimp only at h
      split at h
      · next hname =>
        cases h
        exact ⟨element, children, outer, rfl, hname, rfl⟩
      · cases h

/-! ### Pieces of markup -/

/-- A run of text begins where it is read. -/
theorem readText_start {stop i : Nat} {r : Found i Extent} (h : readText s stop i = .ok r) :
    r.value.start = i := by
  rw [readText, bind_eq_ok] at h
  obtain ⟨⟨j, hj⟩, -, h⟩ := h
  dsimp only at h
  split at h
  · cases h
  · split at h
    · cases h
      rfl
    · cases h

/-- A CDATA section begins where it is read. -/
theorem readCdata_start {stop i : Nat} {r : Found i Extent} (h : readCdata s stop i = .ok r) :
    r.value.start = i := by
  rw [readCdata, bind_eq_ok] at h
  obtain ⟨⟨j, hj⟩, -, h⟩ := h
  rw [bind_eq_ok] at h
  obtain ⟨_, -, h⟩ := h
  cases h
  rfl

/-- A processing instruction begins where it is read. -/
theorem readInstruction_start {stop i : Nat} {r : Found i Extent}
    (h : readInstruction s stop i = .ok r) :
    r.value.start = i := by
  rw [readInstruction] at h
  split at h
  · cases h
  · rw [bind_eq_ok] at h
    obtain ⟨⟨_, j, hj⟩, -, h⟩ := h
    dsimp only at h
    rw [bind_eq_ok] at h
    obtain ⟨⟨k, hk⟩, -, h⟩ := h
    rw [bind_eq_ok] at h
    obtain ⟨_, -, h⟩ := h
    cases h
    rfl

/-- A start tag begins where it is read. -/
theorem readStartTag_start {stop i : Nat} {r : Found i StartTag}
    (h : readStartTag s stop i = .ok r) :
    r.value.extent.start = i := by
  rw [readStartTag, bind_eq_ok] at h
  obtain ⟨⟨name, j, hj⟩, -, h⟩ := h
  cases h
  rfl

/-- A piece of content of one kind has been read by the reader of that kind. -/
theorem map_eq_ok {α : Type} {i : Nat} {f : α → Markup} {x : Except SyntaxError (Found i α)}
    {r : Found i Markup} (h : x.map (Found.map f) = .ok r) :
    ∃ found, x = .ok found ∧ r.value = f found.value ∧ r.next = found.next := by
  cases x with
  | error e => cases h
  | ok found =>
    cases h
    exact ⟨found, rfl, rfl, rfl⟩

/-- A tag begins with `<`, and an end tag with `</`. -/
theorem byte?_of_openingAt {stop i : Nat} :
    (openingAt s stop i = .startTag → s.byte? i = some (byteOf '<')) ∧
      (openingAt s stop i = .endTag →
        s.byte? i = some (byteOf '<') ∧ s.byte? (i + 1) = some (byteOf '/')) := by
  rw [openingAt]
  split
  · next hopening =>
    rw [beq_iff_eq, byteIn?_eq_some_iff] at hopening
    refine ⟨fun _ => hopening.2, fun h => ⟨hopening.2, ?_⟩⟩
    -- Of what may follow the sign, only the slash makes it an end tag.
    split at h
    · split at h
      · cases h
      · split at h <;> cases h
    · cases h
    · next hslash => exact (byteIn?_eq_some_iff.mp hslash).2
    · cases h
    · cases h
  · refine ⟨?_, ?_⟩ <;> intro h <;> cases h

/-- What a piece of markup comes to, where it is read from offset `i` on. -/
inductive Adds (s : Source) (entities : Array Entity)
    (expand : Nat → Extent → Xml.Tree → Except SyntaxError Xml.Tree) (room stop i : Nat)
    (t t' : Xml.Tree) :
    Markup → Nat → Prop where
  | comment {next : Nat} (room_le : i + 7 ≤ next) (stop_le : next ≤ stop)
      (eq : t' = t.addLeaf .comment ⟨i, next⟩) :
      Adds s entities expand room stop i t t' (.comment ⟨i, next⟩) next
  | cdata {extent : Extent} {next : Nat} (start_eq : extent.start = i)
      (eq : t' = t.appendText extent) :
      Adds s entities expand room stop i t t' (.cdata extent) next
  | instruction {extent : Extent} {next : Nat} (start_eq : extent.start = i)
      (eq : t' = t.addLeaf .instruction extent) :
      Adds s entities expand room stop i t t' (.instruction extent) next
  | endTag {r : Found i EndTag} (opening : s.byte? i = some (byteOf '<'))
      (slash : s.byte? (i + 1) = some (byteOf '/')) (read : readEndTag s stop i = .ok r)
      (eq : t.endTag r.value = .ok t') : Adds s entities expand room stop i t t' (.endTag r.value)
        r.next
  | startTag {r : Found i StartTag} (opening : s.byte? i = some (byteOf '<'))
      (read : readStartTag s stop i = .ok r) (eq : t.startTag s entities room r.value = .ok t') :
      Adds s entities expand room stop i t t' (.startTag r.value) r.next
  | text {extent : Extent} {next : Nat} (start_eq : extent.start = i)
      (eq : t.addText s entities expand extent extent.start false = .ok t') :
      Adds s entities expand room stop i t t' (.text extent) next

/-- Every piece of markup that is read comes to one of these. -/
theorem add_cases {entities : Array Entity} {room stop i : Nat}
    {expand : Nat → Extent → Xml.Tree → Except SyntaxError Xml.Tree} {r : Found i Markup}
    (hread : readMarkup s stop i = .ok r) (h : t.add s entities expand room r.value = .ok t') :
    Adds s entities expand room stop i t t' r.value r.next := by
  rw [readMarkup] at hread
  split at hread
  case h_1 =>
    obtain ⟨found, hfound, hvalue, hnext⟩ := map_eq_ok hread
    obtain ⟨hextent, hroom, hstop⟩ := readComment_extent hfound
    rw [hvalue, hextent] at h ⊢
    cases h
    rw [hnext]
    exact .comment hroom hstop rfl
  case h_2 =>
    obtain ⟨found, hfound, hvalue, -⟩ := map_eq_ok hread
    rw [hvalue] at h ⊢
    cases h
    exact .cdata (readCdata_start hfound) rfl
  case h_3 =>
    obtain ⟨found, hfound, hvalue, -⟩ := map_eq_ok hread
    rw [hvalue] at h ⊢
    cases h
    exact .instruction (readInstruction_start hfound) rfl
  -- An end tag, a start tag, and text.
  case h_4 hopening =>
    obtain ⟨found, hfound, hvalue, hnext⟩ := map_eq_ok hread
    obtain ⟨hi, hslash⟩ := byte?_of_openingAt.2 hopening
    rw [hvalue] at h ⊢
    rw [hnext]
    exact .endTag hi hslash hfound h
  case h_5 hopening =>
    obtain ⟨found, hfound, hvalue, hnext⟩ := map_eq_ok hread
    rw [hvalue] at h ⊢
    rw [hnext]
    exact .startTag (byte?_of_openingAt.1 hopening) hfound h
  case h_6 =>
    obtain ⟨found, hfound, hvalue, -⟩ := map_eq_ok hread
    rw [hvalue] at h ⊢
    exact .text (readText_start hfound) h
  case h_7 => cases hread

/-- **Run.** All content keeps what every piece of markup keeps. What is kept may be about the
    number of elements that are open in the content. -/
theorem readContent_keeps {entities : Array Entity} {room stop i j depth : Nat}
    {expand : Nat → Extent → Xml.Tree → Except SyntaxError Xml.Tree}
    {P : Nat → Option Nat → Xml.Tree → Prop}
    (hstep : ∀ {i depth : Nat} {t t' : Xml.Tree} {r : Found i Markup}, i < stop →
      readMarkup s stop i = .ok r → t.add s entities expand room r.value = .ok t' →
      P i (some depth) t →
        P r.next (depthAfter depth r.value) t')
    (ht : P i (some depth) t)
    (h : readContent s entities expand room stop i depth t = .ok (t', j)) :
    ∃ last, P j last t' := by
  fun_induction readContent s entities expand room stop i depth t with
  | case1 => cases h
  | case2 => cases h
  | case3 i depth t hi markup k hk hread t₁ hadd depth' hdepth ih =>
    have hnext := hstep hi hread hadd ht
    rw [hdepth] at hnext
    exact ih hnext h
  | case4 i depth t hi markup k hk hread t₁ hadd hdepth =>
    cases h
    exact ⟨_, hstep hi hread hadd ht⟩
  | case5 =>
    cases h
    exact ⟨_, ht⟩

/-! ### The whole document -/

theorem addMisc_comment (pieces : Array Markup) (extent : Extent) (t : Xml.Tree) :
    t.addMisc (pieces.push (.comment extent)) = (t.addMisc pieces).addLeaf .comment extent := by
  simp [Tree.addMisc]

theorem addMisc_instruction (pieces : Array Markup) (extent : Extent) (t : Xml.Tree) :
    t.addMisc (pieces.push (.instruction extent))
      = (t.addMisc pieces).addLeaf .instruction extent := by
  simp [Tree.addMisc]

theorem pending_addMisc (pieces : Array Markup) (t : Xml.Tree) :
    (t.addMisc pieces).pending = t.pending := by
  rw [Tree.addMisc, ← Array.foldl_toList]
  induction pieces.toList generalizing t with
  | nil => rfl
  | cons piece rest ih =>
    rw [List.foldl_cons, ih]
    cases piece <;> first | rfl | exact pending_addNode _ _

/-- A root element is read if there is a tag, and if the tag opens it, its content as well. -/
theorem readRoot_cases {entities : Array Entity} {stop i j : Nat}
    (h : readRoot s entities stop i t = .ok (t', j)) :
    t' = t ∧ j = i ∨
      ∃ (r : Found i StartTag) (t₁ : Xml.Tree), s.byte? i = some (byteOf '<') ∧
        readStartTag s stop i = .ok r ∧ t.startTag s entities maxDepth r.value = .ok t₁ ∧
        (r.value.ending = .opened ∧ content s entities maxDepth stop r.next t₁ = .ok (t', j) ∨
          r.value.ending ≠ .opened ∧ t' = t₁ ∧ j = r.next) := by
  rw [readRoot] at h
  split at h
  · next hopening =>
    rw [beq_iff_eq, byteIn?_eq_some_iff] at hopening
    rw [bind_eq_ok] at h
    obtain ⟨r, hread, h⟩ := h
    rw [bind_eq_ok] at h
    obtain ⟨t₁, hstart, h⟩ := h
    refine .inr ⟨r, t₁, hopening.2, hread, hstart, ?_⟩
    split at h
    · next hending => exact .inl ⟨hending, h⟩
    · next hending =>
      cases h
      exact .inr ⟨hending, rfl, rfl⟩
  · cases h
    exact .inl ⟨rfl, rfl⟩

/-- A document has been read up to its end, and all its elements are closed. -/
theorem parse_cases {root : Node} (h : parse s = .ok root) :
    ∃ prolog i pieces j k, readProlog s s.size = .ok (prolog, i) ∧
      ∃ t : Xml.Tree,
        readRoot s prolog.entities s.size i (Tree.empty.addMisc prolog.pieces) = .ok (t, j) ∧
        readMisc s s.size j #[] = .ok (pieces, k) ∧ (t.addMisc pieces).levels = [] ∧
        (t.addMisc pieces).top.any Node.isElement = true ∧
        root = .node .document ⟨0, s.size⟩ (t.addMisc pieces).top.reverse := by
  rw [parse, bind_eq_ok] at h
  obtain ⟨⟨prolog, i⟩, hprolog, h⟩ := h
  rw [bind_eq_ok] at h
  obtain ⟨⟨t, j⟩, hroot, h⟩ := h
  rw [bind_eq_ok] at h
  obtain ⟨⟨pieces, k⟩, hmisc, h⟩ := h
  -- All three parts have been read, and what follows are the checks of the whole document.
  dsimp only at h
  split at h
  · cases h
  · split at h
    · next hlevels =>
      split at h
      · next helement =>
        cases h
        exact ⟨prolog, i, pieces, j, k, hprolog, t, hroot, hmisc, hlevels, helement, rfl⟩
      · cases h
    · cases h

/-- What is read behind a prolog that is known. -/
theorem parse_cases_of_prolog {root : Node} {prolog : Prolog} {i : Nat} (h : parse s = .ok root)
    (hprolog : readProlog s s.size = .ok (prolog, i)) :
    ∃ pieces j k, ∃ t : Xml.Tree,
      readRoot s prolog.entities s.size i (Tree.empty.addMisc prolog.pieces) = .ok (t, j) ∧
      readMisc s s.size j #[] = .ok (pieces, k) ∧ (t.addMisc pieces).levels = [] ∧
      (t.addMisc pieces).top.any Node.isElement = true ∧
      root = .node .document ⟨0, s.size⟩ (t.addMisc pieces).top.reverse := by
  obtain ⟨prolog', i', pieces, j, k, hprolog', hparts⟩ := parse_cases h
  rw [hprolog] at hprolog'
  cases hprolog'
  exact ⟨pieces, j, k, hparts⟩

end XmlHighlight
