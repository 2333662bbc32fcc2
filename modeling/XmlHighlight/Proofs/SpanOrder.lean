import XmlHighlight.Proofs.Placement

/-!
# Span order — spans one after the other

Spans lie between two offsets if none is empty and each begins where the one before it has ended, or
later. Lists of spans that lie in adjoining stretches of the text can be put together.

* `SpansWithin` — spans in order between two offsets;
* `SpansWithin.append`, `SpansWithin.pairwise` — putting lists together, and what the order comes
  to;
* `AttributesStandAt.spansWithin` — attributes in agreement with the text paint inside their own
  place;
* `TokensPaintWithin` — tokens of which none fails, and whose spans lie between two offsets.
-/

namespace XmlHighlight

/-! ### Spans between two offsets -/

/-- Spans lie in order between offsets `lo` and `hi`, and none of them is empty. -/
def SpansWithin (lo hi : Nat) : List Span → Prop
  | [] => lo ≤ hi
  | span :: rest => lo ≤ span.start ∧ 0 < span.length ∧
  SpansWithin (span.start + span.length) hi rest

variable {lo m hi : Nat} {spans more : List Span}

theorem SpansWithin.le (h : SpansWithin lo hi spans) : lo ≤ hi := by
  induction spans generalizing lo with
  | nil => exact h
  | cons span rest ih =>
    obtain ⟨hlo, -, hrest⟩ := h
    have := ih hrest
    omega

/-- Spans in one part of the text and spans behind them lie in both parts together. -/
theorem SpansWithin.append (h : SpansWithin lo m spans) (h' : SpansWithin m hi more) :
    SpansWithin lo hi (spans ++ more) := by
  induction spans generalizing lo with
  | nil =>
    cases more with
    | nil => exact Nat.le_trans h h'
    | cons span rest => exact ⟨Nat.le_trans h h'.1, h'.2⟩
  | cons span rest ih => exact ⟨h.1, h.2.1, ih h.2.2⟩

theorem SpansWithin.mono_left {lo' : Nat} (h : SpansWithin lo hi spans) (hle : lo' ≤ lo) :
    SpansWithin lo' hi spans :=
  SpansWithin.append (show SpansWithin lo' lo [] from hle) h

/-- A single span, or none if it would be empty. -/
theorem spansWithin_span {start length : Nat} {style : StyleClass} (hlo : lo ≤ start)
    (hhi : start + length ≤ hi) : SpansWithin lo hi (span start length style) := by
  unfold span
  split
  · next hlength => exact ⟨hlo, hlength, hhi⟩
  · exact Nat.le_trans hlo (Nat.le_trans (Nat.le_add_right _ _) hhi)

/-- Every span that lies between two offsets ends before the second of them, and later spans begin
    behind it. -/
theorem SpansWithin.pairwise (h : SpansWithin lo hi spans) :
    (∀ span ∈ spans, lo ≤ span.start ∧ 0 < span.length ∧ span.start + span.length ≤ hi) ∧
      spans.Pairwise fun a b => a.start + a.length ≤ b.start := by
  induction spans generalizing lo with
  | nil => exact ⟨List.forall_mem_nil _, .nil⟩
  | cons span rest ih =>
    obtain ⟨hlo, hlength, hrest⟩ := h
    obtain ⟨hall, hpairwise⟩ := ih hrest
    refine ⟨?_, .cons (fun other hother => (hall other hother).1) hpairwise⟩
    rw [List.forall_mem_cons]
    refine ⟨⟨hlo, hlength, hrest.le⟩, fun other hother => ?_⟩
    obtain ⟨hle, hothers⟩ := hall other hother
    exact ⟨by omega, hothers⟩

/-! ### Tokens in agreement with the text -/

variable {s : Source} {index : LineIndex}

/-- The spans of an attribute lie in order where it stands. -/
theorem TagAttribute.StandsAt.spansWithin {attr : TagAttribute} {place : AttributePlace}
    (h : attr.StandsAt s index place) :
    SpansWithin place.start (place.closing + 1) (attr.paintAt place) := by
  have hname := h.name_le
  have hequals := h.equals_lt
  have hopening := h.opening_lt
  unfold TagAttribute.paintAt
  refine SpansWithin.append (m := place.equals + 1) (.append (m := place.equals) ?_ ?_) ?_
  · exact spansWithin_span (Nat.le_refl _) hname
  · exact ⟨Nat.le_refl _, Nat.one_pos, Nat.le_refl _⟩
  · refine spansWithin_span (by omega) ?_
    unfold AttributePlace.valueLength
    omega

/-- The spans of attributes lie in order where they stand. -/
theorem AttributesStandAt.spansWithin {i j : Nat} {attrs : List TagAttribute}
    {places : List AttributePlace} (h : AttributesStandAt s index i attrs places j) :
    SpansWithin i j (attrs.zipWith TagAttribute.paintAt places).flatten := by
  induction h with
  | nil i => exact Nat.le_refl i
  | cons le_start first _ ih =>
    rw [List.zipWith_cons_cons, List.flatten_cons]
    exact (first.spansWithin.mono_left le_start).append ih

/-! ### What tokens paint -/

variable (s index)

/-- A token does not fail, and its spans lie between two offsets. -/
def Token.PaintsWithin (token : Token) (lo hi : Nat) : Prop :=
  ∃ spans, tokenSpans s index token = ⟨spans, .ok ()⟩ ∧ SpansWithin lo hi spans

/-- No token fails, and the spans of all of them lie between two offsets. -/
structure TokensPaintWithin (lo hi : Nat) (tokens : List Token) : Prop where
  clean : ∀ item ∈ tokens.map Except.ok, itemFailure s index item = none
  spans : SpansWithin lo hi (itemsSpans s index (tokens.map .ok))

variable {s index}

theorem Token.PaintsWithin.mono_left {lo' : Nat} {token : Token}
    (h : token.PaintsWithin s index lo hi)
    (hle : lo' ≤ lo) : token.PaintsWithin s index lo' hi := by
  obtain ⟨spans, hspans, hwithin⟩ := h
  exact ⟨spans, hspans, hwithin.mono_left hle⟩

/-- A start tag paints in order between its two delimiters. -/
theorem paintsWithin_startTag {name : String} {pos : TextPos} {attrs : List TagAttribute}
    {empty : Bool}
    {start nameEnd last : Nat} {spans : List Span} (close : Nat)
    (offset : index.offsetAt pos = .ok (start + 1))
    (hname : start + 1 + name.utf8ByteSize = nameEnd)
    (hattrs : attributesSpans s index nameEnd attrs = ⟨spans, .ok last⟩)
    (hspans : SpansWithin nameEnd last spans)
    (hclose : seek s '>' .tagEnd last = ⟨[], .ok (if empty then close + 1 else close)⟩)
    (hlast : last ≤ close) (hhi : close + (if empty then 2 else 1) ≤ hi) :
    (Token.startTag name pos attrs empty).PaintsWithin s index start hi := by
  subst hname
  refine ⟨_, tokenSpans_startTag offset hattrs hclose, ?_⟩
  refine SpansWithin.append (m := last) (.append (.append (m := start + 1) ?_ ?_) hspans) ?_
  · exact ⟨Nat.le_refl _, Nat.one_pos, Nat.le_refl _⟩
  · exact spansWithin_span (Nat.le_refl _) (Nat.le_refl _)
  · refine ⟨hlast, ?_, hhi⟩
    show 0 < if empty then 2 else 1
    split <;> omega

/-- An end tag paints in order between its two delimiters. -/
theorem paintsWithin_endTag {name : String} {pos : TextPos} {start close : Nat}
    (offset : index.offsetAt pos = .ok (start + 2)) (hname : start + 2 + name.utf8ByteSize ≤ close)
    (hclose : seek s '>' .tagEnd (start + 2 + name.utf8ByteSize) = ⟨[], .ok close⟩) :
    (Token.endTag name pos).PaintsWithin s index start (close + 1) := by
  refine ⟨_, tokenSpans_endTag offset hclose, ?_⟩
  refine SpansWithin.append (m := close) (.append (m := start + 2) ?_ ?_) ?_
  · exact ⟨Nat.le_refl _, Nat.two_pos, Nat.le_refl _⟩
  · exact spansWithin_span (Nat.le_refl _) hname
  · exact ⟨Nat.le_refl _, Nat.one_pos, Nat.le_refl _⟩

/-- A comment paints as much as it has bytes. -/
theorem paintsWithin_comment {body : String} {pos : TextPos} {start : Nat}
    (offset : index.offsetAt pos = .ok start) (hhi : start + body.utf8ByteSize ≤ hi) :
    (Token.comment body pos).PaintsWithin s index start hi := by
  refine ⟨span start body.utf8ByteSize .comment, ?_, spansWithin_span (Nat.le_refl _) hhi⟩
  rw [tokenSpans, offsetOf_eq offset, Painting.bind_ok]
  rfl

theorem tokensPaintWithin_nil (hle : lo ≤ hi) : TokensPaintWithin s index lo hi [] :=
  ⟨List.forall_mem_nil _, hle⟩

theorem Token.PaintsWithin.tokens {token : Token} (h : token.PaintsWithin s index lo hi) :
    TokensPaintWithin s index lo hi [token] := by
  obtain ⟨spans, hspans, hwithin⟩ := h
  refine ⟨?_, ?_⟩
  · intro item hitem
    rw [List.map_singleton, List.mem_singleton] at hitem
    rw [hitem, itemFailure, hspans]
  · rw [List.map_singleton, itemsSpans_singleton, itemSpans, hspans]
    exact hwithin

/-- Tokens that paint in one part of the text and tokens that paint behind it. -/
theorem TokensPaintWithin.append {tokens later : List Token}
    (h : TokensPaintWithin s index lo m tokens) (h' : TokensPaintWithin s index m hi later) :
    TokensPaintWithin s index lo hi (tokens ++ later) := by
  refine ⟨?_, ?_⟩
  · rw [List.map_append, List.forall_mem_append]
    exact ⟨h.clean, h'.clean⟩
  · rw [List.map_append, itemsSpans_append]
    exact h.spans.append h'.spans

/-- A scan of tokens that paint between two offsets completes, and hands out their spans in
    order. -/
theorem TokensPaintWithin.scan {tokens : List Token} (h : TokensPaintWithin s index lo hi tokens)
    (settings : Settings) :
    ((planOf s index settings true (tokens.map .ok)).run never).ending = .ok .completed ∧
      SpansWithin lo hi ((planOf s index settings true (tokens.map .ok)).run never).spans := by
  obtain ⟨hending, hspans⟩ := scan_completes s index _ settings h.clean
  rw [hspans]
  exact ⟨hending, h.spans⟩

end XmlHighlight
