import XmlHighlight.Proofs.CarefulScan
import XmlHighlight.Proofs.Placement
import XmlHighlight.Proofs.Preemption

/-!
# Any tokens — what is painted for tokens that need not agree with the text

Tokens may say anything, and the table of lines may be that of another text. A token whose landmarks
are not found fails. All others get the spans of some place: their positions are looked up, and what
has been searched for is there. Whatever a scan hands out, at any time, are the spans of such
places, for the first of its tokens.

* `TagAttribute.IsMarkedAt`, `Token.IsMarkedAt` — places at which landmarks have been found;
* `valueLength_le` — a value ends in the text, wherever it begins;
* `attributeSpans_eq_paintAt`, `tokenSpans_eq_paintAt` — a token that does not fail gets the spans
  of such a place;
* `HandsOutWhole`, `Scanner.HandsOut` — the invariant of a scan that may be stopped anywhere;
* `scan_withstands_any_tokens` — a whole scan.
-/

namespace XmlHighlight

variable (s : Source) (index : LineIndex)

/-! ### Landmarks that have been found -/

/-- A character stands at an offset. -/
def Source.HasChar (c : Char) (i : Nat) : Prop :=
  s.matchesAt (String.singleton c).toByteArray.toList i = true

/-- The landmarks of an attribute have been found. Its value ends in the text. -/
structure TagAttribute.IsMarkedAt (attr : TagAttribute) (place : AttributePlace) : Prop where
  offset : index.offsetAt attr.pos = .ok place.start
  name_le : place.start + attr.name.utf8ByteSize ≤ place.equals
  equals : s.byte? place.equals = some (byteOf '=')
  equals_lt : place.equals < place.opening
  opening : s.HasChar attr.quote place.opening
  opening_lt : place.opening < place.closing
  closing_le : place.closing ≤ s.size

/-- The landmarks of a token have been found. -/
inductive Token.IsMarkedAt : Token → TokenPlace → Prop where
  /-- The `>` of an empty element is the second of the two bytes that are painted. -/
  | startTag {name : String} {pos : TextPos} {attrs : List TagAttribute} {empty : Bool}
      {start close : Nat}
      {places : List AttributePlace} (offset : index.offsetAt pos = .ok (start + 1))
      (attributes : List.Forall₂ (TagAttribute.IsMarkedAt s index) attrs places)
      (closing : s.byte? (if empty then close + 1 else close) = some (byteOf '>')) :
      IsMarkedAt (.startTag name pos attrs empty) (.startTag start places close)
  | endTag {name : String} {pos : TextPos} {start close : Nat}
      (offset : index.offsetAt pos = .ok (start + 2))
      (name_le : start + 2 + name.utf8ByteSize ≤ close)
      (closing : s.byte? close = some (byteOf '>')) :
      IsMarkedAt (.endTag name pos) (.endTag start close)
  | comment {body : String} {pos : TextPos} {start : Nat}
      (offset : index.offsetAt pos = .ok start) :
      IsMarkedAt (.comment body pos) (.comment start)
  | lone (attr : TagAttribute) : IsMarkedAt (.lone attr) .unpainted
  | text (pos : TextPos) (length : Nat) : IsMarkedAt (.text pos length) .unpainted
  | instruction (pos : TextPos) : IsMarkedAt (.instruction pos) .unpainted

variable {s index} {i j : Nat}

/-! ### Searches -/

/-- What is found stands there. -/
theorem Source.matchesAt_of_findBytes? {pattern : List UInt8}
    (h : s.findBytes? pattern i = some j) :
    i ≤ j ∧ s.matchesAt pattern j = true := by
  fun_induction findBytes? s pattern i with
  | case1 i hmatch =>
    obtain rfl := Option.some.inj h
    exact ⟨Nat.le_refl i, hmatch⟩
  | case2 i hmatch hlt ih =>
    -- The search has gone on one byte further.
    obtain ⟨hle, hmatch⟩ := ih h
    exact ⟨Nat.le_of_succ_le hle, hmatch⟩
  | case3 i hmatch hlt => cases h

/-- A character that has been found stands where it was found, at or behind the start. -/
theorem Source.hasChar_of_find? {c : Char} (h : s.find? (String.singleton c) i = some j) :
    i ≤ j ∧ s.HasChar c j := by
  rw [find?] at h
  split at h
  · exact matchesAt_of_findBytes? h
  · cases h

/-- A landmark that is found is there, and nothing is painted on the way. -/
theorem hasChar_of_seek {c : Char} {landmark : Landmark}
    (h : (seek s c landmark i).result = .ok j) :
    seek s c landmark i = ⟨[], .ok j⟩ ∧ i ≤ j ∧ s.HasChar c j := by
  cases hfind : s.find? (String.singleton c) i with
  | none =>
    rw [seek, hfind] at h
    cases h
  | some k =>
    rw [seek, hfind] at h
    obtain rfl := Except.ok.inj h
    rw [seek, hfind]
    exact ⟨rfl, Source.hasChar_of_find? hfind⟩

/-- An ASCII character is its byte. -/
theorem Source.HasChar.byte? {c : Char} (h : s.HasChar c i) (hc : c.utf8Size = 1) :
    s.byte? i = some (byteOf c) := by
  rw [HasChar, bytes_singleton hc] at h
  exact matchesAt_singleton.mp h

/-- A position that is looked up. -/
theorem offsetOf_eq_of_result {pos : TextPos} (h : (offsetOf index pos).result = .ok i) :
    index.offsetAt pos = .ok i := by
  rw [offsetOf] at h
  cases hoffset : index.offsetAt pos with
  | error e =>
    rw [hoffset] at h
    cases h
  | ok k =>
    rw [hoffset] at h
    exact congrArg Except.ok (Except.ok.inj h)

/-! ### Attributes -/

/-- **Values.** Wherever a value begins, it ends in the text. -/
theorem valueLength_le (value : String) (quote : Char) (hi : i ≤ s.size) :
    i + valueLength s i value quote ≤ s.size := by
  have hquoted : ∀ text, isQuotedAt s text quote i = true → i + text.utf8ByteSize ≤ s.size := by
    intro text h
    rw [isQuotedAt, Bool.and_eq_true] at h
    have hle := Source.utf8Size_le_of_matchesAt h.2
    omega
  rw [valueLength]
  -- Either a quote has been found behind the value, or the value is taken to have no length.
  split
  · split
    · next h => exact hquoted value h
    · dsimp only
      split
      · next h => exact hquoted _ h
      · split
        · next k hfind =>
          obtain ⟨hik, hquote⟩ := Source.hasChar_of_find? hfind
          have hle := Source.utf8Size_le_of_matchesAt hquote
          omega
        · omega
  · exact hi

/-- A computation that does not fail has given a value to what comes behind it. -/
theorem Painting.exists_of_bind {α β : Type} {p : Painting α} {f : α → Painting β} {b : β}
    (h : (p >>= f).result = .ok b) : ∃ a, p.result = .ok a ∧ (f a).result = .ok b := by
  obtain ⟨spans, result⟩ := p
  cases result with
  | error e => cases h
  | ok a => exact ⟨a, rfl, h⟩

/-- An attribute that does not fail gets the spans of a place at which its landmarks have been
    found. -/
theorem attributeSpans_eq_paintAt {attr : TagAttribute}
    (h : (attributeSpans s index attr).result = .ok j) :
    ∃ place, attr.IsMarkedAt s index place ∧ 0 < j ∧
      attributeSpans s index attr = ⟨attr.paintAt place, .ok j⟩ := by
  obtain ⟨i, hi, hname⟩ := Painting.exists_of_bind h
  obtain ⟨-, -, hrest⟩ := Painting.exists_of_bind hname
  obtain ⟨eq, heq, hrest⟩ := Painting.exists_of_bind hrest
  obtain ⟨-, -, hrest⟩ := Painting.exists_of_bind hrest
  obtain ⟨opening, hopening, hrest⟩ := Painting.exists_of_bind hrest
  obtain ⟨heq, hname_le, hequals⟩ := hasChar_of_seek heq
  obtain ⟨hopening, hequals_lt, hquote⟩ := hasChar_of_seek hopening
  have hoffset := offsetOf_eq_of_result hi
  have hstart : opening + 1 ≤ s.size := by
    have hle := Source.utf8Size_le_of_matchesAt hquote
    have hpos := Char.utf8Size_pos attr.quote
    omega
  have hclosing := valueLength_le attr.value attr.quote hstart
  -- The closing quote is not looked at: its place is where the width of the value leads to.
  let length := valueLength s (opening + 1) attr.value attr.quote
  let place : AttributePlace := ⟨i, eq, opening, opening + 1 + length⟩
  have hlength : place.valueLength = length := Nat.add_sub_cancel_left ..
  have hspans : attributeSpans s index attr
      = ⟨attr.paintAt place, .ok (opening + 1 + length + attr.quote.utf8Size)⟩ := by
    simp only [attributeSpans, offsetOf_eq hoffset, paint, heq, hopening, Painting.bind_ok,
      Painting.pure_eq, TagAttribute.paintAt, hlength, span_one, List.nil_append, List.append_nil,
      List.append_assoc]
    rfl
  have hlast : j = opening + 1 + length + attr.quote.utf8Size := by
    rw [hspans] at h
    exact (Except.ok.inj h).symm
  have hopening_lt : opening < opening + 1 + length := Nat.le_add_right (opening + 1) length
  refine ⟨place, ?_, by omega, by rw [hspans, hlast]⟩
  exact ⟨hoffset, hname_le, hequals.byte? (by decide), hequals_lt, hquote, hopening_lt, hclosing⟩

/-- So do several of them. -/
theorem attributesSpans_eq_paintAt {attrs : List TagAttribute}
    (h : (attributesSpans s index i attrs).result = .ok j) (hi : 0 < i) :
    ∃ places, List.Forall₂ (TagAttribute.IsMarkedAt s index) attrs places ∧ 0 < j ∧
      attributesSpans s index i attrs
        = ⟨(attrs.zipWith TagAttribute.paintAt places).flatten, .ok j⟩ := by
  induction attrs generalizing i with
  | nil =>
    obtain rfl := Except.ok.inj h
    exact ⟨[], .nil, hi, rfl⟩
  | cons attr rest ih =>
    obtain ⟨k, hfirst, hrest⟩ := Painting.exists_of_bind h
    obtain ⟨place, hplace, hk, hspans⟩ := attributeSpans_eq_paintAt hfirst
    obtain ⟨places, hplaces, hj, hothers⟩ := ih hrest hk
    refine ⟨place :: places, .cons hplace hplaces, hj, ?_⟩
    rw [attributesSpans, hspans, Painting.bind_ok, hothers]
    rfl

/-! ### Tokens -/

/-- **Token by token.** A token that does not fail gets the spans of a place at which its landmarks
    have been found. -/
theorem tokenSpans_eq_paintAt {token : Token} (h : (tokenSpans s index token).result = .ok ()) :
    ∃ place, token.IsMarkedAt s index place ∧
    (tokenSpans s index token).spans = token.paintAt place := by
  cases token with
  | lone attr => exact ⟨.unpainted, .lone attr, rfl⟩
  | text pos length => exact ⟨.unpainted, .text pos length, rfl⟩
  | instruction pos => exact ⟨.unpainted, .instruction pos, rfl⟩
  | comment body pos =>
    obtain ⟨i, hi, -⟩ := Painting.exists_of_bind h
    have hoffset := offsetOf_eq_of_result hi
    refine ⟨.comment i, .comment hoffset, ?_⟩
    rw [tokenSpans, offsetOf_eq hoffset, Painting.bind_ok]
    rfl
  | endTag name pos =>
    obtain ⟨i, hi, hrest⟩ := Painting.exists_of_bind h
    have hoffset := offsetOf_eq_of_result hi
    by_cases hlt : i < 2
    · rw [if_pos hlt] at hrest
      cases hrest
    · -- There is room for `</` before the name.
      rw [if_neg hlt] at hrest
      obtain ⟨start, rfl⟩ : ∃ start, i = start + 2 := ⟨i - 2, by omega⟩
      obtain ⟨-, -, hrest⟩ := Painting.exists_of_bind hrest
      obtain ⟨-, -, hrest⟩ := Painting.exists_of_bind hrest
      obtain ⟨close, hclose, -⟩ := Painting.exists_of_bind hrest
      obtain ⟨hclose, hname_le, hgreater⟩ := hasChar_of_seek hclose
      refine ⟨.endTag start close, .endTag hoffset hname_le (hgreater.byte? (by decide)), ?_⟩
      rw [tokenSpans_endTag hoffset hclose]
      rfl
  | startTag name pos attrs empty =>
    obtain ⟨i, hi, hrest⟩ := Painting.exists_of_bind h
    have hoffset := offsetOf_eq_of_result hi
    by_cases hzero : i = 0
    · rw [if_pos hzero] at hrest
      cases hrest
    · rw [if_neg hzero] at hrest
      obtain ⟨start, rfl⟩ : ∃ start, i = start + 1 := ⟨i - 1, by omega⟩
      obtain ⟨-, -, hrest⟩ := Painting.exists_of_bind hrest
      obtain ⟨-, -, hrest⟩ := Painting.exists_of_bind hrest
      obtain ⟨last, hattrs, hrest⟩ := Painting.exists_of_bind hrest
      obtain ⟨greater, hgreater, -⟩ := Painting.exists_of_bind hrest
      obtain ⟨places, hplaces, hlast, hspans⟩ := attributesSpans_eq_paintAt hattrs (by omega)
      obtain ⟨hclose, hle, hgreater⟩ := hasChar_of_seek hgreater
      -- The search has begun behind the first byte of the text, and so there is one before the `>`.
      obtain ⟨close, hclosing⟩ : ∃ close, greater = if empty then close + 1 else close := by
        cases empty with
        | false => exact ⟨greater, rfl⟩
        | true => exact ⟨greater - 1, (Nat.sub_add_cancel (Nat.le_trans hlast hle)).symm⟩
      rw [hclosing] at hclose hgreater
      refine ⟨.startTag start places close, .startTag hoffset hplaces (hgreater.byte? (by decide)),
        ?_⟩
      rw [tokenSpans_startTag hoffset hspans hclose]
      rfl

/-- A span is not empty, and ends in the text if it is that of a value. -/
structure Span.StaysIn (s : Source) (x : Span) : Prop where
  pos : 0 < x.length
  value_le : x.style = .attributeValue → x.start + x.length ≤ s.size

theorem staysIn_span {start length : Nat} {style : StyleClass}
    (h : style = .attributeValue → start + length ≤ s.size) :
    ∀ x ∈ span start length style, x.StaysIn s := by
  intro x hx
  unfold span at hx
  split at hx
  · next hpos =>
    obtain rfl := List.mem_singleton.mp hx
    exact ⟨hpos, h⟩
  · cases hx

/-- Neither delimiters nor names are values. -/
theorem staysIn_span_of_ne {start length : Nat} {style : StyleClass} (h : style ≠ .attributeValue) :
    ∀ x ∈ span start length style, x.StaysIn s :=
  staysIn_span fun heq => absurd heq h

/-- The spans of an attribute that is marked in the text stay in the text. -/
theorem TagAttribute.IsMarkedAt.staysIn {attr : TagAttribute} {place : AttributePlace}
    (h : attr.IsMarkedAt s index place) : ∀ x ∈ attr.paintAt place, x.StaysIn s := by
  intro x hx
  rw [paintAt, List.mem_append, List.mem_append, ← span_one] at hx
  rcases hx with (hname | hequals) | hvalue
  · exact staysIn_span_of_ne (by decide) x hname
  · exact staysIn_span_of_ne (by decide) x hequals
  · refine staysIn_span (fun _ => ?_) x hvalue
    have hlt := h.opening_lt
    have hle := h.closing_le
    rw [AttributePlace.valueLength]
    omega

/-- What is painted for a token at such a place stays in the text as far as it has to. -/
theorem Token.IsMarkedAt.staysIn {token : Token} {place : TokenPlace}
    (h : token.IsMarkedAt s index place) :
    ∀ x ∈ token.paintAt place, x.StaysIn s := by
  intro x hx
  cases h with
  | lone | text | instruction => cases hx
  | comment offset => exact staysIn_span_of_ne (by decide) x hx
  | endTag offset name_le closing =>
    rw [paintAt, List.mem_append, List.mem_append, ← span_two, ← span_one] at hx
    rcases hx with (hopening | hname) | hclosing
    · exact staysIn_span_of_ne (by decide) x hopening
    · exact staysIn_span_of_ne (by decide) x hname
    · exact staysIn_span_of_ne (by decide) x hclosing
  | @startTag name pos attrs empty start close places offset attributes closing =>
    rw [paintAt, List.mem_append, List.mem_append, List.mem_append, ← span_one] at hx
    rcases hx with ((hopening | hname) | hattrs) | hclosing
    · exact staysIn_span_of_ne (by decide) x hopening
    · exact staysIn_span_of_ne (by decide) x hname
    · -- One of the attributes paints the span.
      induction attributes with
      | nil => cases hattrs
      | cons first _ ih =>
        rw [List.zipWith_cons_cons, List.flatten_cons, List.mem_append] at hattrs
        rcases hattrs with hfirst | hrest
        · exact first.staysIn x hfirst
        · exact ih hrest
    · obtain rfl := List.mem_singleton.mp hclosing
      refine ⟨?_, fun hstyle => by cases hstyle⟩
      show 0 < if empty = true then 2 else 1
      split
      · exact Nat.zero_lt_two
      · exact Nat.zero_lt_one

/-! ### Scans that are stopped -/

/-- At any time, what has been handed out are the spans of the first items, of which none fails. -/
def HandsOutWhole (s : Source) (index : LineIndex) (items : List TokenItem)
    (actions : List Action) : Prop :=
  ∀ done, done <+: actions → ∃ k, spansOf (flushesOf done) = itemsSpans s index (items.take k) ∧
    ∀ item ∈ items.take k, itemFailure s index item = none

variable {items : List TokenItem} {actions : List Action}

theorem handsOutWhole_nil : HandsOutWhole s index items [] := by
  intro done hdone
  obtain rfl := List.prefix_nil.mp hdone
  exact ⟨0, rfl, List.forall_mem_nil _⟩

/-- One more action. -/
theorem HandsOutWhole.concat (h : HandsOutWhole s index items actions) {a : Action} {k : Nat}
    (hspans : spansOf (flushesOf (actions ++ [a])) = itemsSpans s index (items.take k))
    (hok : ∀ item ∈ items.take k, itemFailure s index item = none) :
    HandsOutWhole s index items (actions ++ [a]) := by
  intro done hdone
  rcases List.prefix_concat_iff.mp hdone with rfl | hbefore
  · exact ⟨k, hspans, hok⟩
  · exact h done hbefore

/-- An action that hands out nothing. -/
theorem HandsOutWhole.concat_quiet (h : HandsOutWhole s index items actions) {a : Action}
    (ha : a.flush? = none) :
    HandsOutWhole s index items (actions ++ [a]) := by
  obtain ⟨k, hspans, hok⟩ := h actions (List.prefix_refl actions)
  refine h.concat (k := k) ?_ hok
  have hquiet : flushesOf [a] = [] := by simp [flushesOf, ha]
  rw [flushesOf_append, hquiet, List.append_nil, hspans]

namespace Scanner

variable {sc : Scanner} {done : List TokenItem} (settings : Settings)

/-- A scan has dealt with some items, none of which fails, and has handed out whole items only. -/
structure HandsOut (s : Source) (index : LineIndex) (done rest : List TokenItem) (sc : Scanner) :
    Prop where
  covers : sc.Covers s index done
  whole : HandsOutWhole s index (done ++ rest) sc.actions.toList
  clean : ∀ item ∈ done, itemFailure s index item = none

/-- Handing out the batch at hand. -/
theorem HandsOut.concat_flush (h : sc.HandsOut s index done items) (progress : Progress) :
    HandsOutWhole s index (done ++ items)
      (sc.actions.push (.flush ⟨progress, sc.batch.toList⟩)).toList := by
  rw [Array.toList_push]
  refine h.whole.concat (k := done.length) ?_ ?_
  · rw [List.take_left, ← h.covers.handedOut_append_batch]
    simp [handedOut]
  · rw [List.take_left]
    exact h.clean

/-- Pulling an item hands out nothing. -/
theorem HandsOut.pull (h : sc.HandsOut s index done items) :
    (sc.pull settings).HandsOut s index done items := by
  refine ⟨h.covers.pull settings, ?_, h.clean⟩
  have hpull : HandsOutWhole s index (done ++ items) (sc.actions.toList ++ [.pull]) :=
    h.whole.concat_quiet rfl
  rw [actions_pull]
  unfold pullActions
  split
  · rw [← List.singleton_append, ← List.append_assoc]
    exact hpull.concat_quiet rfl
  · exact hpull

/-- Reaching a line hands out the batch as it is, if it hands out anything. -/
theorem HandsOut.reach (h : sc.HandsOut s index done items) (line : Nat) :
    (sc.reach index settings line).HandsOut s index done items := by
  refine ⟨h.covers.reach settings line, ?_, h.clean⟩
  simp only [Scanner.reach]
  split
  · exact h.concat_flush _
  · exact h.whole

/-- **Step.** The next item is dealt with, and only items before it are handed out. -/
theorem HandsOut.take {item : TokenItem} (h : sc.HandsOut s index done (item :: items)) :
    HandsOutWhole s index (done ++ item :: items) (sc.take s index settings item).1.actions.toList ∧
      (itemFailure s index item = none →
        (sc.take s index settings item).1.HandsOut s index (done ++ [item]) items) := by
  have hwhole : HandsOutWhole s index (done ++ item :: items)
      (sc.take s index settings item).1.actions.toList := by
    cases item with
    | error message => exact (h.pull settings).whole
    | ok token =>
      have hreach := ((h.pull settings).reach settings token.pos.line).whole
      cases hresult : (tokenSpans s index token).result with
      | error e =>
        simp only [Scanner.take, hresult]
        exact hreach
      | ok u =>
        simp only [Scanner.take, hresult]
        exact hreach
  -- An item without a failure goes from what is to come to what is done.
  refine ⟨hwhole, fun hitem => ⟨(h.covers.take settings item).2.1 hitem, ?_, ?_⟩⟩
  · rwa [List.append_assoc, List.singleton_append]
  · intro other hother
    rcases List.mem_append.mp hother with hdone | hlast
    · exact h.clean other hdone
    · rwa [List.mem_singleton.mp hlast]

/-- **Run.** By induction on the items that are left. -/
theorem HandsOut.takeAll (h : sc.HandsOut s index done items) :
    HandsOutWhole s index (done ++ items) (sc.takeAll s index settings items).actions.toList := by
  induction items generalizing sc done with
  | nil => exact h.concat_flush _
  | cons item rest ih =>
    -- Behind an item that fails nothing more is done; behind any other it counts as dealt with.
    obtain ⟨hwhole, hnext⟩ := h.take settings
    rw [takeAll_cons]
    cases hitem : itemFailure s index item with
    | some e => exact hwhole
    | none =>
      have hrest := ih (hnext hitem)
      rwa [List.append_assoc, List.singleton_append] at hrest

end Scanner

/-- A whole scan hands out what its items give, whatever the items are. -/
theorem handsOutWhole_planOf (settings : Settings) (hasPositions : Bool) (items : List TokenItem) :
    HandsOutWhole s index items (planOf s index settings hasPositions items).actions.toList := by
  cases hasPositions with
  | false => exact handsOutWhole_nil
  | true =>
    have hstart : Scanner.start.HandsOut s index [] items :=
      ⟨Scanner.covers_start, handsOutWhole_nil, List.forall_mem_nil _⟩
    exact hstart.takeAll settings

/-- No item fails in a scan that is to complete. -/
theorem itemFailure_of_completed {settings : Settings} {hasPositions : Bool}
    (h : (planOf s index settings hasPositions items).ending = .ok .completed) :
    ∀ item ∈ items, itemFailure s index item = none := by
  rw [ending_planOf] at h
  split at h
  · rw [Scanner.endingOver] at h
    split at h
    · next hnone => exact List.findSome?_eq_none_iff.mp hnone
    · cases h
  · cases h

/-- A run, stopped or not, has handed out what the actions that it has carried out have. If it
    completes, these are all actions. -/
theorem Plan.exists_carriedOut (plan : Plan) (cancel : Nat → Bool) :
    ∃ done, done <+: plan.actions.toList ∧ (plan.run cancel).spans = spansOf (flushesOf done) ∧
      ((plan.run cancel).ending = .ok .completed →
        done = plan.actions.toList ∧ plan.ending = .ok .completed) := by
  have hspans (done : List Action) : ((nothingDone plan.ending).after done).spans
    = spansOf (flushesOf done) := by
    simp [Report.spans, Report.after, nothingDone]
  rcases runActions_cases cancel plan.ending plan.actions.toList (nothingDone plan.ending) with
    hrun | ⟨before, after, hactions, hrun⟩
  · have hrun : plan.run cancel = _ := hrun
    refine ⟨plan.actions.toList, List.prefix_refl _, ?_, fun hend => ⟨rfl, ?_⟩⟩
    · rw [hrun, ← hspans]
      rfl
    · rwa [hrun] at hend
  · have hrun : plan.run cancel = _ := hrun
    refine ⟨before ++ [.poll], ⟨after, by rw [hactions, List.append_assoc]; rfl⟩, ?_,
      fun hend => ?_⟩
    · rw [hrun, ← hspans]
      rfl
    · -- A run that has been stopped is not complete.
      rw [hrun] at hend
      cases hend

/-- What a scan has handed out when it is over are the spans of its first items, none of which
    fails; and of all items if it completes. -/
theorem exists_spans_run (settings : Settings) (hasPositions : Bool) (items : List TokenItem)
    (cancel : Nat → Bool) :
    let report := (planOf s index settings hasPositions items).run cancel
    ∃ k, report.spans = itemsSpans s index (items.take k) ∧
      (∀ item ∈ items.take k, itemFailure s index item = none) ∧
      (report.ending = .ok .completed → items.take k = items) := by
  intro report
  obtain ⟨done, hprefix, hspans, hcomplete⟩ :=
    (planOf s index settings hasPositions items).exists_carriedOut cancel
  -- A scan that has not come to its end has stopped at a flush, and flushes hand out whole items.
  by_cases hend : report.ending = .ok .completed
  · obtain ⟨rfl, hplan⟩ := hcomplete hend
    refine ⟨items.length, ?_, ?_, fun _ => List.take_length⟩
    · rw [List.take_length, ← (clean_planOf s index hasPositions items settings).1 hplan]
      exact hspans
    · rw [List.take_length]
      exact itemFailure_of_completed hplan
  · obtain ⟨k, hk, hok⟩ := handsOutWhole_planOf settings hasPositions items done hprefix
    exact ⟨k, hspans.trans hk, hok, fun h => absurd h hend⟩

/-- Items that do not fail are tokens with places. -/
theorem exists_places {items : List TokenItem}
    (h : ∀ item ∈ items, itemFailure s index item = none) :
    ∃ painted : List (Token × TokenPlace), items = painted.map (fun x => .ok x.1) ∧
      itemsSpans s index items = painted.flatMap (fun x => x.1.paintAt x.2) ∧
      ∀ x ∈ painted, x.1.IsMarkedAt s index x.2 := by
  induction items with
  | nil => exact ⟨[], rfl, rfl, List.forall_mem_nil _⟩
  | cons item rest ih =>
    obtain ⟨hitem, hrest⟩ := List.forall_mem_cons.mp h
    obtain ⟨painted, rfl, hspans, hmarked⟩ := ih hrest
    cases item with
    | error message => cases hitem
    | ok token =>
      have hresult : (tokenSpans s index token).result = .ok () := by
        cases hresult : (tokenSpans s index token).result with
        | ok u => rfl
        | error e =>
          rw [itemFailure, hresult] at hitem
          cases hitem
      obtain ⟨place, hplace, hpaint⟩ := tokenSpans_eq_paintAt hresult
      refine ⟨(token, place) :: painted, rfl, ?_, List.forall_mem_cons.mpr ⟨hplace, hmarked⟩⟩
      rw [List.flatMap_cons, ← hspans, ← hpaint]
      rfl

/-! ### All scans -/

/-- **Any tokens.** Let the sums for the positions of some items be words. Whatever the items, the
    table of lines, the settings and the requests to stop are, a scan that checks all it does comes
    upon no fault. What the scan has handed out when it is over are the spans of its first tokens,
    and of all of them if it completes, each at a place at which its landmarks have been found. No
    span is empty, and none that is the value of an attribute goes past the end of the text. -/
theorem scan_withstands_any_tokens (settings : Settings) (hasPositions : Bool)
    (items : List TokenItem)
    (cancel : Nat → Bool) (hfits : ∀ item ∈ items, item.Fits index) :
    let plan := planOf s index settings hasPositions items
    let report := plan.run cancel
    Careful.planOf s index settings hasPositions items = .ok plan ∧
      (∃ painted : List (Token × TokenPlace), painted.map (fun x => .ok x.1) <+: items ∧
        (report.ending = .ok .completed → painted.map (fun x => .ok x.1) = items) ∧
        report.spans = painted.flatMap (fun x => x.1.paintAt x.2) ∧
        ∀ x ∈ painted, x.1.IsMarkedAt s index x.2) ∧
      ∀ x ∈ report.spans, 0 < x.length ∧
      (x.style = .attributeValue → x.start + x.length ≤ s.size) := by
  intro plan report
  obtain ⟨k, hspans, hok, hcomplete⟩ := @exists_spans_run s index settings hasPositions items cancel
  obtain ⟨painted, hitems, hpaint, hmarked⟩ := exists_places hok
  refine ⟨Careful.planOf_eq_ok settings hasPositions hfits,
    ⟨painted, ?_, fun hend => ?_, hspans.trans hpaint, hmarked⟩, ?_⟩
  · rw [← hitems]
    exact List.take_prefix k items
  · rw [← hitems]
    exact hcomplete hend
  · intro x hx
    rw [show report.spans = _ from hspans.trans hpaint] at hx
    obtain ⟨⟨token, place⟩, hmem, hx⟩ := List.mem_flatMap.mp hx
    have hin := (hmarked _ hmem).staysIn x hx
    exact ⟨hin.pos, hin.value_le⟩

/-- A tag and a comment with the lines of another text, where a value begins inside its quote and
    the comment lies behind the end of the text. All settings are zero. -/
theorem scan_withstands_other_lines :
    let s := Source.ofText "<a b=€1€ c='2'/>"
    let index := LineIndex.build (.ofText "not this\ntext, but another one")
    let attr : TagAttribute := ⟨"name", "value", '€', ⟨1, 1⟩⟩
    let items : List TokenItem :=
      [.ok (.startTag "xyz" ⟨1, 2⟩ [attr] true), .ok (.comment "body" ⟨2, 20⟩)]
    let plan := planOf s index ⟨0, 0, 0⟩ true items
    let report := plan.run never
    (∀ item ∈ items, item.Fits index) ∧ Careful.planOf s index ⟨0, 0, 0⟩ true items = .ok plan ∧
      (∃ painted : List (Token × TokenPlace), painted.map (fun x => .ok x.1) <+: items ∧
        (report.ending = .ok .completed → painted.map (fun x => .ok x.1) = items) ∧
        report.spans = painted.flatMap (fun x => x.1.paintAt x.2) ∧
        ∀ x ∈ painted, x.1.IsMarkedAt s index x.2) ∧
      report.ending = .ok .completed ∧
      report.spans = [⟨0, 1, .delimiter⟩, ⟨1, 3, .elementName⟩, ⟨0, 4, .attributeName⟩,
        ⟨4, 1, .delimiter⟩, ⟨18, 2, .delimiter⟩, ⟨28, 4, .comment⟩] := by
  intro s index attr items plan report
  -- The lines are those of the other text, the second of which begins at offset 9.
  have hfirst : index.offsetOfLine 1 = .ok 0 := by decide +kernel
  have hsecond : index.offsetOfLine 2 = .ok 9 := by decide +kernel
  have hfits : ∀ item ∈ items, item.Fits index := by
    intro item hitem token htoken pos hpos start hstart
    rcases List.mem_pair.mp hitem with rfl | rfl
    · obtain rfl := Except.ok.inj htoken
      rcases List.mem_pair.mp hpos with rfl | rfl
      · obtain rfl := Except.ok.inj (hfirst.symm.trans hstart)
        decide
      · obtain rfl := Except.ok.inj (hfirst.symm.trans hstart)
        decide
    · obtain rfl := Except.ok.inj htoken
      obtain rfl := List.mem_singleton.mp hpos
      obtain rfl := Except.ok.inj (hsecond.symm.trans hstart)
      decide
  obtain ⟨hcareful, hpainted, -⟩ :=
    scan_withstands_any_tokens (s := s) ⟨0, 0, 0⟩ true items never hfits
  exact ⟨hfits, hcareful, hpainted, by decide +kernel, by decide +kernel⟩

end XmlHighlight
