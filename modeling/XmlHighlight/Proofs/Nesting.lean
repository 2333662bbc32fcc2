import XmlHighlight.Proofs.SingleRoot
import XmlHighlight.Proofs.Strays
import XmlHighlight.Proofs.TokenOrder

/-!
# Nesting — tags in pairs, in the order of the text

The tokens of a document in order nest like its elements. A walk enters an element, goes through
what is in it except for what comes out of entities, and leaves it again; the tokens of these steps
are its start tag, the tokens of what is in it, and its end tag.

An entity may close an element that has been opened around it. The end tag stands in the value of
the entity then, and no token says so. Apart from these end tags, which are known from the tree, the
tags nest all the same, and the order of the tokens does not depend on them. Nothing is said about
the tokens of strays, which are what entities have put beside the root element.

* `lackedEnd?`, `completed?` — the end tags that stand in entities, and the tokens with them;
* `Encloses` — tags that stand in an element;
* `GiveInOrder`, `NodesInOrder.giveInOrder` — the tokens of nodes in order;
* `ReadsInOrder`, `TagsStandIn` — what the tokens say about a document;
* `tokens_nest` — the tokens of a document.
-/

namespace XmlHighlight

open Xml

variable (s : Source) (entities : Array Entity)

/-! ### End tags that stand in entities -/

/-- Where a walk leaves an element that an entity has closed, there is an end tag in the value of
    the entity. Its name is that of the start tag, as far as the document has been accepted. -/
def lackedEnd? : Step → Option Token
  | .enter _ => none
  | .leave ⟨node, _, _⟩ =>
    if node.isElement = true ∧ InEntity entities (node.extent.stop - 1) then
      some (.endTag (qualifiedName s (node.extent.start + 1)) (s.posOf node.extent.stop))
    else none

/-- The token of a step, or else the end tag that stands in an entity. -/
def completed? (step : Step) : Option Token := (tokenOf? s step).or (lackedEnd? s entities step)

/-- An element that begins outside the entities. -/
def Xml.Node.isOwnElement (n : Node) : Bool :=
  n.isElement && !decide (InEntity entities n.extent.start)

/-- A tag stands in an element that begins outside the entities: not before the place where it
    begins and, unless an entity has closed it, with the whole name before the place where it
    ends. -/
def Encloses (n : Node) (token : Token) : Prop :=
  n.isOwnElement entities = true ∧ ∃ i, n.extent.start ≤ i ∧ token.pos = s.posOf i ∧
    (¬ InEntity entities (n.extent.stop - 1) → i + token.tagName.utf8ByteSize ≤ n.extent.stop)

/-- Without those of strays, the tokens of some steps through `nodes` stand in order between `lo`
    and `hi`, and every tag stands in an element of these nodes. With the end tags that stand in
    entities, the tags nest, and `count` elements lie in no other. -/
structure GiveInOrder (count : Nat) (nodes : List Node) (lo hi : Nat) (steps : List Step) :
    Prop where
  within : TokensWithin s lo hi ((ownSteps entities steps).filterMap (tokenOf? s))
  nests : Nests count ((ownSteps entities steps).filterMap (completed? s entities))
  tags : ∀ token ∈ (ownSteps entities steps).filterMap (tokenOf? s), token.isTag = true →
    ∃ n ∈ nodes, Encloses s entities n token

variable {s entities} {R i m lo hi : Nat} {siblings later : List Node} {steps : List Step}
  {above : List (Node × List Node)} {n : Node} {values : List (Nat × String)} {extent : Extent}
  {children : List Node} {tag : StartTag} {closing : EndTag}

/-- Nothing is lacking where an element ends in the text, nor at a node that is no element. -/
theorem completed?_leave (place : Location)
    (h : place.node.isElement = true → ¬ InEntity entities (place.node.extent.stop - 1)) :
    completed? s entities (.leave place) = tokenOf? s (.leave place) := by
  have hnone : lackedEnd? s entities (.leave place) = none := if_neg fun hin => h hin.1 hin.2
  rw [completed?, hnone, Option.or_none]

/-- Nothing is lacking where a node is entered. -/
theorem completed?_enter (place : Location) :
    completed? s entities (.enter place) = tokenOf? s (.enter place) :=
  Option.or_none

namespace GiveInOrder

theorem nil (hle : lo ≤ hi) (siblings : List Node) :
    GiveInOrder s entities 0 siblings lo hi [] where
  within := hle
  nests := .nil
  tags := List.forall_mem_nil _

/-- Steps through some nodes go before the steps through the nodes behind them. -/
theorem append {count count' : Nat} {steps' : List Step}
    (h : GiveInOrder s entities count siblings lo m steps)
    (h' : GiveInOrder s entities count' later m hi steps') :
    GiveInOrder s entities (count + count') (siblings ++ later) lo hi (steps ++ steps') where
  within := by
    rw [ownSteps_append, List.filterMap_append]
    exact h.within.append h'.within
  nests := by
    rw [ownSteps_append, List.filterMap_append]
    exact h.nests.append h'.nests
  tags token htoken htag := by
    rw [ownSteps_append, List.filterMap_append, List.mem_append] at htoken
    rcases htoken with htoken | htoken
    · obtain ⟨n, hn, hin⟩ := h.tags token htoken htag
      exact ⟨n, List.mem_append_left _ hn, hin⟩
    · obtain ⟨n, hn, hin⟩ := h'.tags token htoken htag
      exact ⟨n, List.mem_append_right _ hn, hin⟩

/-- Steps give their tokens in a part that begins earlier as well. -/
theorem mono_left {count : Nat} (h : GiveInOrder s entities count siblings m hi steps)
    (hle : lo ≤ m) : GiveInOrder s entities count siblings lo hi steps where
  within := h.within.mono_left hle
  nests := h.nests
  tags := h.tags

/-- All tags stand in an element if the tokens stand between its ends. -/
theorem of_element {count : Nat} (helement : n.isOwnElement entities = true)
    (within : TokensWithin s n.extent.start hi ((ownSteps entities steps).filterMap (tokenOf? s)))
    (nests : Nests count ((ownSteps entities steps).filterMap (completed? s entities)))
    (hstop : ¬ InEntity entities (n.extent.stop - 1) → hi ≤ n.extent.stop) :
    GiveInOrder s entities count [n] n.extent.start hi steps where
  within := within
  nests := nests
  tags token htoken _ := by
    obtain ⟨i, hstart, hpos, hle⟩ := within.pairwise.1 token htoken
    exact ⟨n, List.mem_singleton_self n, helement, i, hstart, hpos,
      fun hout => Nat.le_trans hle (hstop hout)⟩

end GiveInOrder

/-! ### Tokens of one node -/

/-- The name of a tag has room for what a token repeats of it. -/
theorem NameStandsAt.size_untilBlank {stop nameEnd : Nat} {b : UInt8}
    (h : NameStandsAt s stop i nameEnd) (hnext : s.byte? nameEnd = some b)
    (hb : isSpace b = true ∨ b = byteOf '/' ∨ b = byteOf '>') :
    i + (untilBlank (s.slice i nameEnd)).utf8ByteSize ≤ nameEnd := by
  obtain ⟨e, hie, hle, hstart, he, heq⟩ := qualifiedName_of_standsAt h hnext hb
  rw [← qualifiedName_eq h hnext hb, heq, Source.utf8ByteSize_slice hstart he hie]
  omega

theorem Xml.StartTag.IsReadAt.size_name (h : tag.IsReadAt s i) (hending : tag.IsComplete) :
    i + 1 + (untilBlank (tag.written s)).utf8ByteSize ≤ tag.nameExtent.stop := by
  obtain ⟨-, hname, _, rest, -, htag⟩ := h.standsAt hending
  obtain ⟨b, hb, hends⟩ := htag.rest.byte?_nameEnd
  rw [StartTag.written, hname]
  exact htag.name.size_untilBlank hb hends

theorem Xml.EndTag.IsReadAt.size_name (h : closing.IsReadAt s i) :
    i + 2 + (untilBlank (closing.written s)).utf8ByteSize ≤ closing.nameExtent.stop := by
  obtain ⟨-, hname, _, close, -, htag⟩ := h.standsAt
  obtain ⟨b, hb, hends⟩ := htag.byte?_nameEnd
  rw [EndTag.written, hname]
  exact htag.name.size_untilBlank hb hends

/-- An element behind all entities begins outside of them. -/
theorem isOwnElement_of_le (hentities : EntitiesBefore s R entities) (own : R ≤ extent.start) :
    (Node.node (.element values) extent children).isOwnElement entities = true := by
  have hout : ¬ InEntity entities
      (Node.node (.element values) extent children).extent.start := hentities.not_inEntity own
  rw [Node.isOwnElement, decide_eq_false hout]
  rfl

/-- One element begins outside of the entities if it is a single one that does. -/
theorem countP_own (hentities : EntitiesBefore s R entities) (own : R ≤ extent.start) :
    [Node.node (.element values) extent children].countP (Node.isOwnElement entities) = 1 := by
  rw [List.countP_singleton, if_pos (isOwnElement_of_le hentities own)]

/-- No node above has to do with entities, and so it is with a node that begins outside of them. -/
theorem out_cons (hout : ¬ InEntity entities n.extent.start)
    (habove : ∀ m ∈ above.map Prod.fst, ¬ InEntity entities m.extent.start) :
    ∀ m ∈ n :: above.map Prod.fst, ¬ InEntity entities m.extent.start :=
  List.forall_mem_cons.mpr ⟨hout, habove⟩

/-- What the steps through a node give: what it gives when it is entered, what the nodes inside it
    give, and what it gives when it is left. -/
theorem filterMap_visitNode {α : Type} (f : Step → Option α) (later : List Node)
    (hshown : isExpanded above n = false)
    (hout : ∀ m ∈ n :: above.map Prod.fst, ¬ InEntity entities m.extent.start) :
    (ownSteps entities (visitNode above later n)).filterMap f
      = (f (.enter ⟨n, later, above⟩)).toList ++
        ((ownSteps entities (visitSiblings ((n, later) :: above) n.children)).filterMap f ++
          (f (.leave ⟨n, later, above⟩)).toList) := by
  have hsingle : ∀ step, [step].filterMap f = (f step).toList := fun step => by
    cases hstep : f step with
    | none => exact List.filterMap_cons_none hstep
    | some a => exact List.filterMap_cons_some hstep
  rw [ownSteps_visitNode later hshown hout, ← List.singleton_append, List.filterMap_append,
    List.filterMap_append, hsingle, hsingle]

/-- An element with a start tag that is not empty gives a start tag, what the nodes inside it give,
    and perhaps an end tag. If it gives none, one stands in an entity. -/
theorem opened_gives {count outer : Nat} {name name' : String} {pos : TextPos}
    {attrs : List TagAttribute} (hentities : EntitiesBefore s R entities) (own : R ≤ extent.start)
    (habove : ∀ m ∈ above.map Prod.fst, ¬ InEntity entities m.extent.start)
    (hshown : isExpanded above (.node (.element values) extent children) = false)
    (hstart : startTagOf s values extent = .startTag name (s.posOf (extent.start + 1)) attrs false)
    (hsize : extent.start + 1 + name.utf8ByteSize ≤ m)
    (hinner : GiveInOrder s entities count children m outer
      (visitSiblings ((.node (.element values) extent children, later) :: above) children))
    (hend : TokensWithin s outer hi (endTagOf? s extent).toList)
    (hcompleted : completed? s entities
      (.leave ⟨.node (.element values) extent children, later, above⟩) = some (.endTag name' pos))
    (hsame : SameName name name')
    (hstop : ¬ InEntity entities (extent.stop - 1) → hi ≤ extent.stop) :
    GiveInOrder s entities 1 [.node (.element values) extent children] extent.start hi
      (visitNode above later (.node (.element values) extent children)) := by
  have hentered : tokenOf? s (.enter ⟨.node (.element values) extent children, later, above⟩)
      = some (.startTag name (s.posOf (extent.start + 1)) attrs false) := congrArg some hstart
  have hout := out_cons (n := .node (.element values) extent children)
    (hentities.not_inEntity own) habove
  refine .of_element (isOwnElement_of_le hentities own) ?_ ?_ hstop
  · rw [filterMap_visitNode _ later hshown hout, hentered]
    exact ⟨extent.start + 1, Nat.le_succ _, rfl, (hinner.within.append hend).mono_left hsize⟩
  · rw [filterMap_visitNode _ later hshown hout, hcompleted, completed?_enter, hentered]
    exact .element hinner.nests hsame .nil

/-- **Empty elements.** Their only token is a start tag that is empty. -/
theorem emptyElement_gives (hentities : EntitiesBefore s R entities) (own : R ≤ extent.start)
    (opened : tag.IsReadAt s extent.start) (ending : tag.ending = .selfClosed)
    (extent_eq : extent = tag.extent) (later : List Node)
    (habove : ∀ m ∈ above.map Prod.fst, ¬ InEntity entities m.extent.start)
    (hshown : isExpanded above (.node (.element values) extent []) = false) :
    GiveInOrder s entities 1 [.node (.element values) extent []] extent.start extent.stop
      (visitNode above later (.node (.element values) extent [])) := by
  have hcomplete : tag.IsComplete := .inr ending
  obtain ⟨-, hname, -⟩ := opened.standsAt hcomplete
  have hself := opened.isSelfClosing ending extent_eq
  obtain ⟨attrs, htoken, -⟩ :=
    startTagOf_repeats values opened hcomplete (by rw [hself, ending]; rfl)
  have hentered : tokenOf? s (.enter ⟨.node (.element values) extent [], later, above⟩)
      = some (.startTag (untilBlank (tag.written s)) (s.posOf (extent.start + 1)) attrs true) := by
    rw [ending, hname] at htoken
    exact congrArg some htoken
  have hleft : tokenOf? s (.leave ⟨.node (.element values) extent [], later, above⟩) = none := by
    show endTagOf? s extent = none
    rw [endTagOf?, hself]
    rfl
  -- The tag is read in the text, so it ends behind all entities.
  have hsize := opened.size_name hcomplete
  have hlt := (opened.name_lt hcomplete).2
  rw [← extent_eq] at hlt
  have hstop : ¬ InEntity entities (extent.stop - 1) := hentities.not_inEntity (by omega)
  have hout := out_cons (n := .node (.element values) extent [])
    (hentities.not_inEntity own) habove
  refine .of_element (isOwnElement_of_le hentities own) ?_ ?_ fun _ => Nat.le_refl _
  · rw [filterMap_visitNode _ later hshown hout, hentered, hleft]
    exact ⟨extent.start + 1, Nat.le_succ _, rfl, Nat.le_of_lt (Nat.lt_of_le_of_lt hsize hlt)⟩
  · rw [filterMap_visitNode _ later hshown hout, completed?_enter,
      completed?_leave _ fun _ => hstop, hentered, hleft]
    exact .empty .nil

/-- **Elements.** Their tokens are a start tag, the tokens of what is in them, and an end tag. -/
theorem element_gives {count outer : Nat} (hentities : EntitiesBefore s R entities)
    (own : R ≤ extent.start) (opened : tag.IsReadAt s extent.start) (ending : tag.ending = .opened)
    (closed : closing.IsReadAt s outer) (name_eq : tag.name = closing.name)
    (stop_eq : extent.stop = closing.extent.stop)
    (habove : ∀ m ∈ above.map Prod.fst, ¬ InEntity entities m.extent.start)
    (hshown : isExpanded above (.node (.element values) extent children) = false)
    (hinner : GiveInOrder s entities count children tag.extent.stop outer
      (visitSiblings ((.node (.element values) extent children, later) :: above) children)) :
    GiveInOrder s entities 1 [.node (.element values) extent children] extent.start extent.stop
      (visitNode above later (.node (.element values) extent children)) := by
  have hcomplete : tag.IsComplete := .inl ending
  obtain ⟨-, hname, _, rest, -, htag⟩ := opened.standsAt hcomplete
  obtain ⟨-, hendName, -⟩ := closed.standsAt
  have hself : isSelfClosing s extent = decide (tag.ending = .selfClosed) := by
    rw [closed.isSelfClosing stop_eq, ending]
    rfl
  obtain ⟨attrs, htoken, -⟩ := startTagOf_repeats values opened hcomplete hself
  rw [ending, hname] at htoken
  -- The end tag stands behind the start tag, and so behind all entities.
  have hsize := opened.size_name hcomplete
  have hlt := (opened.name_lt hcomplete).2
  have hle := hinner.within.le
  have hendSize := closed.size_name
  have hendLt := closed.name_lt.2
  have hstop : ¬ InEntity entities (extent.stop - 1) := hentities.not_inEntity (by omega)
  have hend : endTagOf? s extent
      = some (.endTag (untilBlank (closing.written s)) (s.posOf (outer + 2))) := by
    rw [endTagOf?_eq htag.opening closed stop_eq, if_neg (by omega), EndTag.token, hendName]
  have hsame : SameName (untilBlank (tag.written s)) (untilBlank (closing.written s)) := by
    have hclosing := closed.isWrittenAs
    rw [← name_eq] at hclosing
    exact ((opened.isWrittenAs hcomplete).sameName hclosing).untilBlank
  refine opened_gives hentities own habove hshown htoken
    (Nat.le_of_lt (Nat.lt_of_le_of_lt hsize hlt)) hinner ?_
    ((completed?_leave _ fun _ => hstop).trans hend) hsame fun _ => Nat.le_refl _
  rw [hend, stop_eq]
  exact ⟨outer + 2, Nat.le_add_right _ _, rfl, Nat.le_of_lt (Nat.lt_of_le_of_lt hendSize hendLt)⟩

/-- No end tag is found for an element that ends before it begins. -/
theorem endTagOf?_of_lt (h : extent.stop < extent.start) : endTagOf? s extent = none := by
  have hholds : holds s extent = false := by
    rw [holds, decide_eq_false (Nat.not_le.mpr h), Bool.false_and, Bool.false_and]
  rw [endTagOf?, hholds, Bool.not_false, Bool.or_true]
  rfl

/-- **Elements closed by entities.** Their tokens are a start tag and the tokens of what is in them.
    The end tag stands in an entity. -/
theorem brokenElement_gives {count outer : Nat} (hentities : EntitiesBefore s R entities)
    (own : R ≤ extent.start) (opened : tag.IsReadAt s extent.start) (ending : tag.ending = .opened)
    (closed : InEntity entities (extent.stop - 1)) (stop_lt : extent.stop < extent.start)
    (habove : ∀ m ∈ above.map Prod.fst, ¬ InEntity entities m.extent.start)
    (hshown : isExpanded above (.node (.element values) extent children) = false)
    (hinner : GiveInOrder s entities count children tag.extent.stop outer
      (visitSiblings ((.node (.element values) extent children, later) :: above) children)) :
    GiveInOrder s entities 1 [.node (.element values) extent children] extent.start outer
      (visitNode above later (.node (.element values) extent children)) := by
  have hcomplete : tag.IsComplete := .inl ending
  obtain ⟨-, hname, -⟩ := opened.standsAt hcomplete
  have hself : isSelfClosing s extent = decide (tag.ending = .selfClosed) := by
    rw [isSelfClosing, holds, decide_eq_false (Nat.not_le.mpr stop_lt), ending]
    rfl
  obtain ⟨attrs, htoken, -⟩ := startTagOf_repeats values opened hcomplete hself
  rw [ending, hname] at htoken
  have hsize := opened.size_name hcomplete
  have hlt := (opened.name_lt hcomplete).2
  have hend := endTagOf?_of_lt (s := s) stop_lt
  -- The end tag that is lacking has the name that the start tag begins with.
  have hlacked : completed? s entities
      (.leave ⟨.node (.element values) extent children, later, above⟩)
        = some (.endTag (untilBlank (tag.written s)) (s.posOf extent.stop)) := by
    have hstartName : qualifiedName s (extent.start + 1) = untilBlank (tag.written s) := by
      rw [startTagOf] at htoken
      exact (Token.startTag.inj htoken).1
    have hleft : tokenOf? s (.leave ⟨.node (.element values) extent children, later, above⟩)
      = none := hend
    rw [completed?, hleft, Option.none_or, ← hstartName]
    exact if_pos ⟨rfl, closed⟩
  refine opened_gives hentities own habove hshown htoken
    (Nat.le_of_lt (Nat.lt_of_le_of_lt hsize hlt)) hinner ?_ hlacked (.inl rfl)
    fun hstop => absurd closed hstop
  rw [hend]
  exact Nat.le_refl outer

/-- The token of a node that is no element is no tag. -/
theorem leaf_gives {kind : NodeKind} (hkind : ∀ values, kind ≠ .element values) (later : List Node)
    (hout : ∀ m ∈ Node.node kind extent [] :: above.map Prod.fst,
      ¬ InEntity entities m.extent.start)
    (hshown : isExpanded above (.node kind extent []) = false) :
    GiveInOrder s entities 0 [.node kind extent []] extent.start (leafOffset kind extent)
      (visitNode above later (.node kind extent [])) := by
  have hle := start_le_leafOffset kind extent
  have hown : ownSteps entities (visitNode above later (.node kind extent []))
      = [.enter ⟨.node kind extent [], later, above⟩,
        .leave ⟨.node kind extent [], later, above⟩] := ownSteps_visitNode later hshown hout
  cases kind with
  | element values => exact absurd rfl (hkind values)
  | document =>
    refine ⟨?_, ?_, ?_⟩ <;> rw [hown]
    · exact hle
    · exact .nil
    · exact List.forall_mem_nil _
  | text | comment | instruction =>
    refine ⟨?_, ?_, ?_⟩ <;> rw [hown]
    · exact ⟨_, hle, rfl, Nat.le_refl _⟩
    · exact .plain rfl .nil
    · exact List.forall_mem_singleton.mpr fun htag => by cases htag

/-! ### Tokens of nodes in order -/

/-- A walk below some ancestors comes to an element that begins outside the entities. -/
def isShownElement (entities : Array Entity) (above : List (Node × List Node)) (n : Node) : Bool :=
  n.isOwnElement entities && !isExpanded above n

/-- A walk has no steps of its own at a node that it passes over, nor at a node out of an entity. -/
theorem gives_of_shown {count : Nat} (hle : lo ≤ hi)
    (hcount : [n].countP (Node.isOwnElement entities) = count)
    (h : isExpanded above n = false → GiveInOrder s entities count [n] lo hi
      (visitNode above later n)) :
    GiveInOrder s entities ([n].countP (isShownElement entities above)) [n] lo hi
      (visitNode above later n) := by
  cases hexpanded : isExpanded above n with
  | true =>
    rw [List.countP_singleton, isShownElement, hexpanded, Bool.not_true, Bool.and_false,
      visitNode_expanded later hexpanded]
    exact .nil hle [n]
  | false =>
    rw [List.countP_singleton, isShownElement, hexpanded, Bool.not_false, Bool.and_true,
      ← List.countP_singleton, hcount]
    exact h hexpanded

/-- A node out of an entity gives nothing but strays. -/
theorem gives_of_inEntity (hle : lo ≤ hi) (above : List (Node × List Node)) (later : List Node)
    (hin : InEntity entities n.extent.start) :
    GiveInOrder s entities ([n].countP (isShownElement entities above)) [n] lo hi
      (visitNode above later n) := by
  have hnone := ownSteps_eq_nil above later hin
  have hcount : [n].countP (isShownElement entities above) = 0 := by
    rw [List.countP_singleton, isShownElement, Node.isOwnElement, decide_eq_true hin, Bool.not_true,
      Bool.and_false, Bool.false_and]
    rfl
  rw [hcount]
  refine ⟨?_, ?_, ?_⟩ <;> rw [hnone]
  · exact hle
  · exact .nil
  · exact List.forall_mem_nil _

/-- The steps through a node go before those through the nodes behind it. -/
theorem GiveInOrder.cons
    (hfirst : GiveInOrder s entities ([n].countP (isShownElement entities above)) [n] lo m
      (visitNode above later n))
    (hrest : GiveInOrder s entities (later.countP (isShownElement entities above)) later m hi
      (visitSiblings above later)) :
    GiveInOrder s entities ((n :: later).countP (isShownElement entities above)) (n :: later) lo hi
      (visitSiblings above (n :: later)) := by
  rw [← List.singleton_append, List.countP_append]
  exact hfirst.append hrest

/-- **Run.** The tokens of nodes in order stand in order, and their tags nest. -/
theorem NodesInOrder.giveInOrder (hentities : EntitiesBefore s R entities)
    (h : NodesInOrder s R entities lo siblings hi) (above : List (Node × List Node))
    (habove : ∀ m ∈ above.map Prod.fst, ¬ InEntity entities m.extent.start) :
    GiveInOrder s entities (siblings.countP (isShownElement entities above)) siblings lo hi
      (visitSiblings above siblings) := by
  induction h generalizing above with
  | nil le => exact .nil le []
  | @hidden lo hi n later inEntity _ _ ih =>
    exact .cons (gives_of_inEntity (Nat.le_refl lo) above later inEntity) (ih above habove)
  | @leaf lo hi kind extent later kind_ne le_start _ ih =>
    have hle := start_le_leafOffset kind extent
    refine .cons ?_ (ih above habove)
    by_cases hin : InEntity entities extent.start
    · exact gives_of_inEntity (by omega) above later hin
    · have hcount : [Node.node kind extent []].countP (Node.isOwnElement entities) = 0 := by
        cases kind with
        | element values => exact absurd rfl (kind_ne values)
        | document | text | comment | instruction => rfl
      refine gives_of_shown (by omega) hcount fun hshown => ?_
      exact (leaf_gives kind_ne later (out_cons hin habove) hshown).mono_left le_start
  | @empty lo hi values extent later tag own le_start opened ending extent_eq _ ih =>
    have hlt := opened.start_lt ending extent_eq
    refine .cons (gives_of_shown (by omega) (countP_own hentities own) fun hshown => ?_)
      (ih above habove)
    exact (emptyElement_gives hentities own opened ending extent_eq later habove hshown).mono_left
      le_start
  | @element lo hi outer values extent children later tag closing own le_start opened ending inside
      closed name_eq stop_eq _ ihinside ih =>
    have hlt := inside.start_lt opened ending closed stop_eq
    refine .cons (gives_of_shown (by omega) (countP_own hentities own) fun hshown => ?_)
      (ih above habove)
    have hinner := ihinside ((.node (.element values) extent children, later) :: above)
      (out_cons (hentities.not_inEntity own) habove)
    exact (element_gives hentities own opened ending closed name_eq stop_eq habove hshown
      hinner).mono_left le_start
  | @broken lo hi outer values extent children later tag own le_start opened ending inside closed
      stop_lt _ ihinside ih =>
    have hlt := opened.name_lt (.inl ending)
    have hle := inside.le
    refine .cons (gives_of_shown (by omega) (countP_own hentities own) fun hshown => ?_)
      (ih above habove)
    have hinner := ihinside ((.node (.element values) extent children, later) :: above)
      (out_cons (hentities.not_inEntity own) habove)
    exact (brokenElement_gives hentities own opened ending closed stop_lt habove hshown
      hinner).mono_left le_start

/-! ### The whole document -/

variable (s) in
/-- A tag stands in an extent with its whole name. -/
def Token.StandsIn (token : Token) (extent : Extent) : Prop :=
  ∃ i, extent.start ≤ i ∧ token.pos = s.posOf i ∧ i + token.tagName.utf8ByteSize ≤ extent.stop

variable (s entities) in
/-- The tokens of a document without those of strays. -/
def ownTokens (root : Node) : List Token :=
  (ownSteps entities (visitSiblings [] [root])).filterMap (tokenOf? s)

variable (s entities) in
/-- What the tokens of a document say about it. -/
structure ReadsInOrder (root : Node) : Prop where
  /-- The tokens are those of the steps of a walk, in order. -/
  tokens : (tokensOf s root).toList = (visitSiblings [] [root]).filterMap (tokenOf? s)
  /-- The walk comes to a node out of an entity, or to a node inside such a node, only where an
      entity has put a node directly into the document. -/
  strays : ∀ step ∈ visitSiblings [] [root], step.isStray entities = true →
    ∃ n ∈ root.children, n ∈ step.nodes ∧ InEntity entities n.extent.start
  /-- No token stands before an earlier one. -/
  ordered : (ownTokens s entities root).Pairwise fun a b => a.pos.AtMost b.pos
  /-- With the end tags that stand in entities, the tags nest. The outermost elements are those of
      the text that lie directly in the document. -/
  nests : Nests (root.children.countP (Node.isOwnElement entities))
    ((ownSteps entities (visitSiblings [] [root])).filterMap (completed? s entities))
  /-- An end tag that stands in an entity has no token. -/
  lacking : ∀ place, Step.leave place ∈ ownSteps entities (visitSiblings [] [root]) →
    place.node.isElement = true → InEntity entities (place.node.extent.stop - 1) →
    tokenOf? s (.leave place) = none
  /-- The tags nest without them if the walk comes to no element that ends in an entity. -/
  balanced : (∀ place, Step.leave place ∈ ownSteps entities (visitSiblings [] [root]) →
      place.node.isElement = true → ¬ InEntity entities (place.node.extent.stop - 1)) →
    Nests (root.children.countP (Node.isOwnElement entities)) (ownTokens s entities root)
  /-- All tags stand in elements of the text that lie directly in the document. -/
  within : ∀ token ∈ ownTokens s entities root, token.isTag = true →
    ∃ n ∈ root.children, Encloses s entities n token
  /-- If no entity has put a node directly into the document, these are all its tokens. -/
  complete : (∀ n ∈ root.children, ¬ InEntity entities n.extent.start) →
    (tokensOf s root).toList = ownTokens s entities root

variable (s entities) in
/-- What the tags of a document say about the only element that lies directly in it. -/
structure TagsStandIn (root n : Node) : Prop where
  /-- No tag is the token of a stray. -/
  tags : (tokensOf s root).toList.filter Token.isTag
    = (ownTokens s entities root).filter Token.isTag
  /-- No tag stands before an earlier one. -/
  ordered : ((tokensOf s root).toList.filter Token.isTag).Pairwise fun a b => a.pos.AtMost b.pos
  /-- The element is the only outermost one. -/
  outermost : root.children.countP (Node.isOwnElement entities) = 1
  /-- Unless an entity has closed the element, all tags stand between its ends. -/
  inRoot : ¬ InEntity entities (n.extent.stop - 1) →
    ∀ token ∈ (tokensOf s root).toList, token.isTag = true → token.StandsIn s n.extent

/-- What the steps of its own through a document give is what the steps through the nodes in it
    give. -/
theorem visit_document {α : Type} (f : Step → Option α)
    (hstart : ¬ InEntity entities extent.start)
    (henter : f (.enter ⟨.node .document extent children, [], []⟩) = none)
    (hleave : f (.leave ⟨.node .document extent children, [], []⟩) = none) :
    (ownSteps entities (visitSiblings [] [.node .document extent children])).filterMap f
      = (ownSteps entities
          (visitSiblings [(.node .document extent children, [])] children)).filterMap f := by
  rw [visitSiblings, visitSiblings, List.append_nil,
    filterMap_visitNode f [] rfl (out_cons hstart (List.forall_mem_nil _)), henter, hleave]
  exact List.append_nil _

/-- A document with its nodes in order is read in order. -/
theorem NodesInOrder.readsInOrder (hentities : EntitiesBefore s R entities)
    (horder : NodesInOrder s R entities lo children hi)
    (hstart : ¬ InEntity entities extent.start) :
    ReadsInOrder s entities (.node .document extent children) := by
  have hgive := horder.giveInOrder hentities [(.node .document extent children, [])]
    (List.forall_mem_singleton.mpr hstart)
  have hcount : isShownElement entities [(.node .document extent children, [])]
      = Node.isOwnElement entities := funext fun n => Bool.and_true _
  have htokens : ownTokens s entities (.node .document extent children)
      = (ownSteps entities
          (visitSiblings [(.node .document extent children, [])] children)).filterMap
        (tokenOf? s) := visit_document _ hstart rfl rfl
  have hnests : Nests (children.countP (Node.isOwnElement entities))
      ((ownSteps entities (visitSiblings [] [.node .document extent children])).filterMap
        (completed? s entities)) := by
    rw [visit_document _ hstart rfl rfl, ← hcount]
    exact hgive.nests
  refine ⟨tokensOf_eq_filterMap _, fun step hstep hstray => ?_, ?_, hnests, ?_, fun hends => ?_, ?_,
    fun hbeside => ?_⟩
  · obtain ⟨c, hc, hin, later, hinside⟩ := horder.exists_stray hentities hstart hstep hstray
    exact ⟨c, hc, mem_nodes_of_mem_visitNode c _ later step hinside c List.mem_cons_self, hin⟩
  · rw [htokens]
    exact hgive.within.pairwise.2
  · -- An element ends before it begins if it ends in an entity.
    intro place hplace helement hstop
    have hlt := hentities.lt hstop
    have hle := (horder.beginsOutside hentities hstart hplace place.node List.mem_cons_self).2
      helement
    exact (if_pos helement).trans (endTagOf?_of_lt (by omega))
  · have hsame : ∀ step ∈ ownSteps entities (visitSiblings [] [.node .document extent children]),
        completed? s entities step = tokenOf? s step := by
      intro step hstep
      cases step with
      | enter place => exact completed?_enter place
      | leave place => exact completed?_leave place (hends place hstep)
    rwa [List.filterMap_congr hsame] at hnests
  · rw [htokens]
    exact hgive.tags
  · rw [ownTokens, ownSteps, List.filter_eq_self.mpr fun step hstep => ?_]
    · exact tokensOf_eq_filterMap _
    · rw [horder.isStray_eq_false hentities hstart hbeside hstep]
      rfl

/-- A walk through a node that is no element gives no tag. -/
theorem isTag_of_leaf {step : Step} {token : Token} (helement : n.isElement = false)
    (hchildren : n.children = []) (hstep : step ∈ visitNode above later n)
    (htoken : tokenOf? s step = some token) : token.isTag = false := by
  obtain ⟨kind, extent, children⟩ := n
  obtain rfl : children = [] := hchildren
  cases hexpanded : isExpanded above (.node kind extent []) with
  | true =>
    rw [visitNode_expanded later hexpanded] at hstep
    exact absurd hstep List.not_mem_nil
  | false =>
    have hsteps : visitNode above later (.node kind extent [])
        = [.enter ⟨.node kind extent [], later, above⟩,
          .leave ⟨.node kind extent [], later, above⟩] := visitNode_eq later hexpanded
    rw [hsteps, List.mem_pair] at hstep
    cases kind with
    | element values => cases helement
    | document | text | comment | instruction =>
      rcases hstep with rfl | rfl <;> cases htoken <;> rfl

/-- A stray gives no tag if no element out of an entity lies directly in the document. -/
theorem NodesInOrder.isTag_of_isStray {step : Step} {token : Token}
    (hentities : EntitiesBefore s R entities) (horder : NodesInOrder s R entities lo children hi)
    (hstart : ¬ InEntity entities extent.start)
    (hbeside : ∀ c ∈ children, InEntity entities c.extent.start → c.isElement = false)
    (hstep : step ∈ visitSiblings [] [.node .document extent children])
    (hstray : step.isStray entities = true) (htoken : tokenOf? s step = some token) :
    token.isTag = false := by
  obtain ⟨c, hc, hin, later, hinside⟩ := horder.exists_stray hentities hstart hstep hstray
  have helement := hbeside c hc hin
  exact isTag_of_leaf helement (horder.childless c hc helement) hinside htoken

/-- All tags of such a document are tokens of steps of its own. -/
theorem NodesInOrder.filter_isTag (hentities : EntitiesBefore s R entities)
    (horder : NodesInOrder s R entities lo children hi)
    (hstart : ¬ InEntity entities extent.start)
    (hbeside : ∀ c ∈ children, InEntity entities c.extent.start → c.isElement = false) :
    (tokensOf s (.node .document extent children)).toList.filter Token.isTag
      = (ownTokens s entities (.node .document extent children)).filter Token.isTag := by
  rw [tokensOf_eq_filterMap, ownTokens, List.filter_filterMap, List.filter_filterMap, ownSteps,
    List.filterMap_filter]
  refine List.filterMap_congr fun step hstep => ?_
  cases hstray : step.isStray entities with
  | false => rfl
  | true =>
    cases htoken : tokenOf? s step with
    | none => rfl
    | some token =>
      have hplain := horder.isTag_of_isStray hentities hstart hbeside hstep hstray htoken
      rw [Option.filter_some, hplain]
      rfl

/-- The only node of a kind is every node of that kind. -/
theorem eq_of_filter_eq_singleton {p : Node → Bool} {m : Node} (h : siblings.filter p = [n])
    (hm : m ∈ siblings) (hp : p m = true) : m = n := by
  have hmem : m ∈ siblings.filter p := List.mem_filter.mpr ⟨hm, hp⟩
  rw [h] at hmem
  exact List.mem_singleton.mp hmem

/-- The tags of a document with its nodes in order stand in the only element that lies directly in
    it, if this element begins outside the entities. -/
theorem NodesInOrder.tagsStandIn (hentities : EntitiesBefore s R entities)
    (horder : NodesInOrder s R entities lo children hi)
    (hstart : ¬ InEntity entities extent.start) (hsingle : children.filter Node.isElement = [n])
    (hout : ¬ InEntity entities n.extent.start) :
    TagsStandIn s entities (.node .document extent children) n := by
  have hread := horder.readsInOrder hentities hstart
  have honly : ∀ m ∈ children, m.isElement = true → m = n := fun m hm helement =>
    eq_of_filter_eq_singleton hsingle hm helement
  have htags := horder.filter_isTag hentities hstart fun c hc hin =>
    eq_false_of_ne_true fun helement => hout (honly c hc helement ▸ hin)
  refine ⟨htags, ?_, ?_, fun hstop token htoken htag => ?_⟩
  · rw [htags]
    exact hread.ordered.filter _
  · have hown : children.filter (Node.isOwnElement entities) = [n] := by
      rw [← hsingle]
      refine List.filter_congr fun m hm => ?_
      cases helement : m.isElement with
      | false => rw [Node.isOwnElement, helement, Bool.false_and]
      | true => rw [Node.isOwnElement, helement, honly m hm helement, decide_eq_false hout]; rfl
    show children.countP (Node.isOwnElement entities) = 1
    rw [List.countP_eq_length_filter, hown]
    rfl
  · have hmem : token ∈ (ownTokens s entities (.node .document extent children)).filter
        Token.isTag := htags ▸ List.mem_filter.mpr ⟨htoken, htag⟩
    obtain ⟨m, hm, helement, i, hle, hpos, hroom⟩ :=
      hread.within token (List.mem_filter.mp hmem).1 htag
    obtain rfl := honly m hm (Bool.and_eq_true_iff.mp helement).1
    exact ⟨i, hle, hpos, hroom hstop⟩

/-- **Nesting.** The tokens of a document are in the order of the text and have nothing to do with
    entities. Their tags stand in the elements of the text that lie directly in the document, and
    nest but for the end tags that stand in entities. Only the tokens of strays are not spoken of,
    and these are no tags if the root is the only element that lies directly in the document. If no
    entity closes an element that begins in the text, there are no strays and no such end tags, and
    the root is the only outermost element. -/
theorem tokens_nest {root : Node} {prolog : Prolog} (hparse : parse s = .ok root)
    (hprolog : readProlog s s.size = .ok (prolog, i)) :
    ReadsInOrder s prolog.entities root ∧
    (∀ n, root.children.filter Node.isElement = [n] → TagsStandIn s prolog.entities root n) ∧
    (root.Everywhere (EndsOutside prolog.entities) →
      (∀ step ∈ visitSiblings [] [root], step.isStray prolog.entities = false) ∧
      (tokensOf s root).toList.Pairwise (fun a b => a.pos.AtMost b.pos) ∧
      Nests 1 (tokensOf s root).toList ∧
      ∃ n, root.children.filter Node.isElement = [n] ∧
        ∀ token ∈ (tokensOf s root).toList, token.isTag = true → token.StandsIn s n.extent) := by
  have hentities := readProlog_entitiesBefore hprolog
  obtain ⟨k, horder⟩ := parse_inOrder hparse hprolog
  -- The document begins before all entities, since a declaration stands before each of them.
  have hzero : ¬ InEntity prolog.entities 0 := by
    rintro ⟨entity, hmem, hle, -⟩
    exact absurd ((readProlog_inOrder hprolog).apart entity hmem).1 (Nat.not_lt.mpr hle)
  obtain ⟨children, rfl⟩ : ∃ children, root = .node .document ⟨0, s.size⟩ children := by
    obtain ⟨-, t, -, -, pieces, -, -, -, -, -, -, rfl, -⟩ := parse_parts hparse hprolog
    exact ⟨_, rfl⟩
  replace horder : NodesInOrder s i prolog.entities 0 children k := horder
  have hstart : ¬ InEntity prolog.entities (⟨0, s.size⟩ : Extent).start := hzero
  have hread := horder.readsInOrder hentities hstart
  have htags : ∀ n, children.filter Node.isElement = [n] →
      TagsStandIn s prolog.entities (.node .document ⟨0, s.size⟩ children) n := by
    intro n hsingle
    refine horder.tagsStandIn hentities hstart hsingle ?_
    -- The element that stands in front of the document begins behind the entities.
    obtain ⟨before, m, after, rfl, -, helement, hle⟩ := parse_beginsWith hparse hprolog
    have hmem : m ∈ before ++ m :: after := List.mem_append_right _ List.mem_cons_self
    obtain rfl := eq_of_filter_eq_singleton hsingle hmem helement
    exact hentities.not_inEntity hle
  refine ⟨hread, htags, fun hends => ?_⟩
  obtain ⟨hbeside, n, hsingle, hstop⟩ := parse_singleRoot hparse hprolog hends
  have hcomplete := hread.complete hbeside
  refine ⟨fun step => horder.isStray_eq_false hentities hstart hbeside, ?_, ?_, n, hsingle,
    (htags n hsingle).inRoot hstop⟩
  · rw [hcomplete]
    exact hread.ordered
  · rw [hcomplete, ← (htags n hsingle).outermost]
    refine hread.balanced fun place hplace helement => ?_
    obtain ⟨hplace, hown⟩ := mem_ownSteps.mp hplace
    exact hends.of_mem_walk _ hplace helement
      (isStray_eq_false_iff.mp hown place.node List.mem_cons_self)

/-- In the first document an entity closes an element and another puts a comment beside the root,
    and the root is in order all the same, with an end tag that has no token. In the second document
    no entity closes an element of the text. -/
theorem tokens_nest_expanded :
    (let s := Source.ofText ("<!DOCTYPE r [<!ENTITY e '<b/></c>'><!ENTITY f '<!--k-->'>]>\n"
        ++ "<r><c>\n&e;<d/></r>&f;")
      let first := [Token.startTag "r" ⟨2, 2⟩ [] false, .startTag "c" ⟨2, 5⟩ [] false]
      let last := [Token.startTag "d" ⟨3, 5⟩ [] true, .endTag "r" ⟨3, 10⟩]
      ∃ root prolog i, parse s = .ok root ∧ readProlog s s.size = .ok (prolog, i) ∧
        ReadsInOrder s prolog.entities root ∧
        ownTokens s prolog.entities root = first ++ last ∧
        Nests 1 (first ++ .endTag "c" ⟨1, 34⟩ :: last) ∧
        (tokensOf s root).toList.filter Token.isTag = first ++ last ∧
        ∀ token ∈ first ++ last, token.StandsIn s ⟨60, 78⟩) ∧
    let s := Source.ofText "<!DOCTYPE r [<!ENTITY e \"<x a='1'/>\">]>\n<r>\n<q/>\n&e;</r>"
    let tokens := [Token.startTag "r" ⟨2, 2⟩ [] false, .text ⟨2, 4⟩ 1, .startTag "q" ⟨3, 2⟩ [] true,
      .text ⟨3, 5⟩ 4, .endTag "r" ⟨4, 6⟩]
    ∃ root prolog i, parse s = .ok root ∧ readProlog s s.size = .ok (prolog, i) ∧
      root.Everywhere (EndsOutside prolog.entities) ∧
      (∀ step ∈ visitSiblings [] [root], step.isStray prolog.entities = false) ∧
      (tokensOf s root).toList = tokens ∧ tokens.Pairwise (fun a b => a.pos.AtMost b.pos) ∧
      Nests 1 tokens := by
  refine ⟨?_, ?_⟩
  · intro s first last
    -- All that is asked of the tree in one evaluation: where its only element begins and ends, and
    -- its tokens without and with the end tag that `e` took.
    have hwhole : (parse s).toOption.map
      (fun root => (readProlog s s.size).toOption.map fun found =>
        (decide (¬ InEntity found.1.entities 77),
          (root.children.filter Node.isElement).map Node.extent,
          ownTokens s found.1.entities root,
          (ownSteps found.1.entities (visitSiblings [] [root])).filterMap
            (completed? s found.1.entities)))
        = some (some (true, [⟨60, 78⟩], first ++ last, first ++ .endTag "c" ⟨1, 34⟩ :: last)) := by
      decide +kernel
    obtain ⟨root, hparse, hfound⟩ := Option.map_eq_some_iff.mp hwhole
    replace hparse := toOption_eq_some_iff.mp hparse
    obtain ⟨⟨prolog, i⟩, hprolog, hfound⟩ := Option.map_eq_some_iff.mp hfound
    replace hprolog := toOption_eq_some_iff.mp hprolog
    simp only [Prod.mk.injEq, decide_eq_true_eq] at hfound
    obtain ⟨hstop, hextents, hown, hcompleted⟩ := hfound
    obtain ⟨n, hsingle, hextent⟩ := List.map_eq_singleton_iff.mp hextents
    obtain ⟨hread, htags, -⟩ := tokens_nest hparse hprolog
    obtain ⟨htags, -, houtermost, hroot⟩ := htags n hsingle
    have hnests := hread.nests
    rw [hcompleted, houtermost] at hnests
    have hfilter : (tokensOf s root).toList.filter Token.isTag = first ++ last := by
      rw [htags, hown]
      rfl
    refine ⟨root, prolog, i, hparse, hprolog, hread, hown, hnests, hfilter, fun token htoken => ?_⟩
    rw [← hfilter, List.mem_filter] at htoken
    have hinside := hroot (by rw [hextent]; exact hstop) token htoken.1 htoken.2
    rwa [hextent] at hinside
  · intro s tokens
    have hread : (XmlHighlight.tokens s).toOption = some tokens.toArray := by decide +kernel
    have hends : (parse s).toOption.all (fun root => (readProlog s s.size).toOption.all fun found =>
        decide (root.Everywhere (EndsOutside found.1.entities))) = true := by decide +kernel
    obtain ⟨root, hparse, htokens⟩ := exists_parse_of_tokens hread
    obtain ⟨⟨prolog, i⟩, hprolog, -⟩ := bind_eq_ok.mp hparse
    rw [hparse, hprolog] at hends
    have hall : root.Everywhere (EndsOutside prolog.entities) := of_decide_eq_true hends
    obtain ⟨-, -, hwhole⟩ := tokens_nest hparse hprolog
    obtain ⟨hout, hordered, hnests, -⟩ := hwhole hall
    rw [htokens] at hordered hnests
    exact ⟨root, prolog, i, hparse, hprolog, hall, hout, by rw [htokens], hordered, hnests⟩

/-- In the first document the tags of an element have different names, since a colon may stand
    before a name without a prefix. In the second an entity closes an element, whose end tag has no
    token. In the third it closes the root, which ends in the document type then, and another
    element of the text lies beside the root. -/
theorem tokens_apart :
    let colon := [Token.startTag ":a" ⟨1, 2⟩ [] false, .endTag "a" ⟨1, 7⟩]
    let lacking := [Token.startTag "a" ⟨1, 39⟩ [] false, .startTag "c" ⟨1, 42⟩ [] false,
      .endTag "a" ⟨1, 49⟩]
    let beside := [Token.startTag "a" ⟨1, 39⟩ [] false, .startTag "d" ⟨1, 45⟩ [] true]
    let broken := Source.ofText "<!DOCTYPE a [<!ENTITY e '<b/></a>'>]><a>&e;<d/>"
    (tokens (.ofText "<:a></a>")).toOption = some colon.toArray ∧
      colon.map Token.tagName = [":a", "a"] ∧ ":a" ≠ "a" ∧
      (tokens (.ofText "<!DOCTYPE a [<!ENTITY e '<b/></c>'>]><a><c>&e;</a>")).toOption
        = some lacking.toArray ∧
      (∀ k, ¬ Nests k lacking) ∧
      (tokens broken).toOption = some beside.toArray ∧
      (parse broken).toOption.map (fun root => root.children.map Node.extent)
        = some [⟨37, 33⟩, ⟨43, 47⟩] := by
  refine ⟨by decide +kernel, rfl, by decide, by decide +kernel, fun k hnests => ?_,
    by decide +kernel, by decide +kernel⟩
  exact absurd hnests.countP_eq (by decide)

end XmlHighlight
