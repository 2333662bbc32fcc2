import Mathlib.Control.Monad.Basic
import XmlHighlight.Proofs.ElementTags
import XmlHighlight.Proofs.Runs

/-!
# Failures of scans — all that can go wrong with a document

The delimiters of a tag are searched for in the text, one behind the other, and each search begins
where the one before has ended. In a document they are found, with one exception. The value of an
attribute may contain quotes that come out of entities, and may then be taken to end at a quote that
is not its own. The search for the end of the tag begins behind that quote, and there need not be
any `>`.

* `IsBehindQuote`, `LacksTagEnd` — a quote that no `>` follows;
* `attributeSpans_isBehindQuote` — an attribute, whatever its value is, ends behind a quote;
* `startToken_failsOnly`, `endToken_failsOnly`, `commentToken_failsOnly` — how the tokens of a
  document fail;
* `tokenAt_failsOnly` — and that of any step of a walk;
* `scan_failures` — how a scan of a document ends.
-/

namespace XmlHighlight

open Xml (isQuote Node Extent)

variable {s : Source} {i j k stop : Nat} {cursor : LineCursor} {values : List (Nat × String)}

/-- A quote comes right before the offset. -/
def IsBehindQuote (s : Source) (i : Nat) : Prop :=
  ∃ k b, i = k + 1 ∧ s.byte? k = some b ∧ isQuote b = true

/-- A quote comes right before the offset, and no `>` behind it. -/
structure LacksTagEnd (s : Source) (i : Nat) : Prop where
  behind : IsBehindQuote s i
  no_greater : ∀ k, i ≤ k → s.byte? k ≠ some (byteOf '>')

/-- If a token fails, then because the end of its tag is searched for behind a quote and is not
    found. -/
def Token.FailsOnlyAtTagEnd (s : Source) (token : Token) : Prop :=
  ∀ e, (tokenSpans s (.build s) token).result = .error e →
    ∃ i, e = .misaligned .tagEnd i ∧ LacksTagEnd s i

/-- So it is with a token that does not fail. -/
theorem failsOnlyAtTagEnd_of_ok {token : Token}
    (h : (tokenSpans s (.build s) token).result = .ok ()) :
    token.FailsOnlyAtTagEnd s := by
  intro e he
  rw [h] at he
  cases he

/-- Behind a quote is a boundary. -/
theorem IsBehindQuote.isBoundary (h : IsBehindQuote s i) : s.isBoundary i = true := by
  obtain ⟨k, b, rfl, hb, hquote⟩ := h
  exact Source.isBoundary_succ hb (lt_of_isQuote hquote)

/-! ### Attributes -/

/-- A computation that does not fail goes on with its value. -/
theorem Painting.result_bind {α β : Type} {p : Painting α} {a : α} {f : α → Painting β}
    (h : p.result = .ok a) : (p >>= f).result = (f a).result := by
  obtain ⟨spans, result⟩ := p
  cases h
  rw [Painting.bind_ok]

/-- However the length of a value is found, a quote of its kind comes behind it, if there is one at
    all. -/
theorem byte?_valueLength (value : String) {quote : Char} (hq : quote = '"' ∨ quote = '\'')
    (hi : s.isBoundary i = true) (hij : i ≤ j) (hclosing : s.byte? j = some (byteOf quote)) :
    s.byte? (i + valueLength s i value quote) = some (byteOf quote) := by
  obtain ⟨hsize, -, -⟩ := quote_ascii hq
  have hquoted : ∀ text, isQuotedAt s text quote i = true →
      s.byte? (i + text.utf8ByteSize) = some (byteOf quote) := by
    intro text h
    rw [isQuotedAt, Bool.and_eq_true, bytes_singleton hsize] at h
    exact Source.matchesAt_singleton.mp h.2
  rw [valueLength, if_pos hi]
  split
  · next h => exact hquoted _ h
  · dsimp only
    split
    · next h => exact hquoted _ h
    · -- Neither the text nor its escaped form stands there, so the first quote is taken.
      obtain ⟨k, hk, hik, -, hbyte⟩ := Source.find?_le hsize hi hij hclosing
      rw [hk]
      dsimp only
      rw [Nat.add_sub_cancel' hik]
      exact hbyte

/-- The attribute in a slot is painted from its name to its value, whatever value the document gives
    to it. -/
theorem attributeSpans_of_slot (hsize : s.size < UInt64.size) {slot : Slot} {place : AttributePlace}
    (h : slot.StandsAt s isAsciiBlank place) (hstart : s.isBoundary place.start = true)
    {attr : TagAttribute}
    (hattr : attr = slotAttribute s values slot (LineCursor.atOffset s place.start).pos) :
    let length := valueLength s (place.opening + 1) attr.value attr.quote
    attributeSpans s (.build s) attr
      = ⟨span place.start attr.name.utf8ByteSize .attributeName ++ [⟨place.equals, 1, .delimiter⟩]
          ++ span (place.opening + 1) length .attributeValue,
          .ok (place.opening + 1 + length + 1)⟩ := by
  subst hattr
  obtain ⟨hquote, hbyte⟩ := ofNat_quote h.quote
  obtain ⟨hone, -, -⟩ := quote_ascii hquote
  have hoffset := LineIndex.offsetAt_atOffset s (Source.le_size_of_isBoundary hstart) hsize
  have hname : place.start + (s.slice slot.name.start slot.name.stop).utf8ByteSize
    = slot.name.stop := by
    have := h.name_lt
    rw [h.start, Source.utf8ByteSize_slice hstart h.isBoundary_nameStop (Nat.le_of_lt this)]
    omega
  -- Up to the opening quote the searches pass over white space only, and the value plays no part.
  have hequals := seek_eq .equals (by decide) h.isBoundary_nameStop h.name_le h.before
    (by decide) h.equals
  have hopening : seek s (Char.ofNat slot.quote.toNat) .openingQuote (place.equals + 1)
      = ⟨[], .ok place.opening⟩ := by
    refine seek_eq .openingQuote hone (Source.isBoundary_succ h.equals (by decide)) h.equals_lt
      h.after ?_ ?_
    · rw [hbyte]
      exact isAsciiBlank_of_isQuote h.quote
    · rw [hbyte]
      exact h.opening
  simp only [attributeSpans, slotAttribute, offsetOf_eq hoffset, hname, hequals, hopening, hone,
    paint, Painting.bind_ok, Painting.pure_eq, span_one, List.nil_append, List.append_nil,
    List.append_assoc]

/-- It ends behind a quote. -/
theorem attributeSpans_isBehindQuote (hsize : s.size < UInt64.size) {slot : Slot}
    {place : AttributePlace}
    (h : slot.StandsAt s isAsciiBlank place) (hstart : s.isBoundary place.start = true) :
    ∃ last, (attributeSpans s (.build s)
        (slotAttribute s values slot (LineCursor.atOffset s place.start).pos)).result = .ok last ∧
      IsBehindQuote s last := by
  obtain ⟨hquote, hbyte⟩ := ofNat_quote h.quote
  have hvalue := Source.isBoundary_succ h.opening (lt_of_isQuote h.quote)
  have hclosing : s.byte? place.closing = some (byteOf (Char.ofNat slot.quote.toNat)) := by
    rw [hbyte]
    exact h.closing
  have hlast := byte?_valueLength
    (slotAttribute s values slot (LineCursor.atOffset s place.start).pos).value
    hquote hvalue h.opening_lt hclosing
  refine ⟨_, ?_, _, _, rfl, hlast, ?_⟩
  · rw [attributeSpans_of_slot hsize h hstart rfl]
    rfl
  · rw [hbyte]
    exact h.quote

/-- So are the attributes of a tag. -/
theorem attributesSpans_isBehindQuote (hsize : s.size < UInt64.size) {written : List Slot}
    {places : List AttributePlace} (h : SlotsStandAt s isAsciiBlank i written places j)
    (hi : s.isBoundary i = true) (hcursor : cursor.IsOn s) (first : Nat) :
    (∃ last,
        (attributesSpans s (.build s) first (slotAttributes s values cursor written).1).result
          = .ok last ∧
        (last = first ∨ IsBehindQuote s last)) ∧
      (slotAttributes s values cursor written).2.IsOn s := by
  induction h generalizing cursor first with
  | nil i => exact ⟨⟨first, rfl, .inl rfl⟩, hcursor⟩
  | @cons i j slot place written places le_start blanks standing _ ih =>
    have hstart := blanks.isBoundary_right (fun _ => lt_of_isAsciiBlank) le_start hi
    have hon := LineCursor.isOn_atOffset (Source.le_size_of_isBoundary hstart)
    have hmove : cursor.moveTo s slot.name.start = LineCursor.atOffset s place.start := by
      rw [standing.start]
      exact hcursor.moveTo (Source.le_size_of_isBoundary hstart)
    obtain ⟨last, hresult, hlast⟩ := attributeSpans_isBehindQuote hsize standing hstart
    obtain ⟨⟨later, hmore, hlater⟩, hcursor'⟩ :=
      ih (Source.isBoundary_succ standing.closing (lt_of_isQuote standing.quote)) hon last
    rw [slotAttributes, hmove]
    refine ⟨⟨later, ?_, ?_⟩, hcursor'⟩
    · dsimp only
      rw [attributesSpans, Painting.result_bind hresult, hmore]
    · -- Without attributes after it, the last end is that of this attribute.
      rcases hlater with rfl | hquote
      · exact .inr hlast
      · exact .inr hquote

/-! ### Tags -/

/-- The name that is read from the text ends before the first `>` at the latest. -/
theorem qualifiedName_end (hi : s.isBoundary i = true) (hik : i ≤ k)
    (hk : s.byte? k = some (byteOf '>')) :
    ∃ e, i + (qualifiedName s i).utf8ByteSize = e ∧ s.isBoundary e = true ∧ e ≤ k := by
  have hchars := Source.allChars_skipChars (s := s) (fun c => !isBlank c && c != '/' && c != '>')
    s.size i
  have hend := hchars.isBoundary_right hi
  refine ⟨_, ?_, hend, ?_⟩
  · rw [qualifiedName, Source.utf8ByteSize_slice hi hend hchars.le]
    exact Nat.add_sub_cancel' hchars.le
  · have hbytes : s.AllBytes (· != byteOf '>') i _ := hchars.allBytes fun b hb => by
      obtain rfl : b = byteOf '>' := by simpa using hb
      decide
    by_contra hlt
    exact hbytes.ne (by decide) hik (by omega) hk

/-- The end of a tag is found, or there is none. -/
theorem seek_tagEnd_cases (hi : s.isBoundary i = true) :
    (∃ close, seek s '>' .tagEnd i = ⟨[], .ok close⟩) ∨
      seek s '>' .tagEnd i = .fail (.misaligned .tagEnd i) ∧
        ∀ k, i ≤ k → s.byte? k ≠ some (byteOf '>') := by
  cases hfind : s.find? (String.singleton '>') i with
  | some close =>
    refine .inl ⟨close, ?_⟩
    rw [seek, hfind]
    rfl
  | none =>
    refine .inr ⟨?_, fun k hik hk => ?_⟩
    · rw [seek, hfind]
    · obtain ⟨l, hl, -⟩ := Source.find?_le (show '>'.utf8Size = 1 by decide) hi hik hk
      rw [hfind] at hl
      cases hl

/-- A start tag fails only if its end is missing. -/
theorem result_startTag {index : LineIndex} {name : String} {pos : TextPos}
    {attrs : List TagAttribute}
    {empty : Bool} {last : Nat} (offset : index.offsetAt pos = .ok (i + 1))
    (hattrs : (attributesSpans s index (i + 1 + name.utf8ByteSize) attrs).result = .ok last) :
    (tokenSpans s index (.startTag name pos attrs empty)).result
      = (seek s '>' .tagEnd last).result.map fun _ => () := by
  have hnot : i + 1 ≠ 0 := by omega
  simp only [tokenSpans, offsetOf_eq offset, Painting.bind_ok, if_neg hnot, paint,
    Painting.result_bind hattrs]
  cases hseek : seek s '>' .tagEnd last with
  | mk found result =>
    cases result with
    | error e => rfl
    | ok close =>
      rw [Painting.bind_ok]
      dsimp only [Except.map]
      split <;> rfl

/-- The token of a start tag fails only at the end of the tag, if a `>` comes anywhere behind its
    `<`. -/
theorem startToken_failsOnly (hsize : s.size < UInt64.size) (values : List (Nat × String))
    {extent : Extent}
    (h : IsOpened s extent.start) (hcursor : cursor.IsOn s) :
    (startToken s values extent cursor).1.FailsOnlyAtTagEnd s ∧
      (startToken s values extent cursor).2.IsOn s := by
  obtain ⟨hopening, k, hik, hgreater⟩ := h
  have hstart := Source.isBoundary_succ hopening (by decide)
  have hon := LineCursor.isOn_atOffset (Source.le_size_of_isBoundary hstart)
  have hoffset := LineIndex.offsetAt_atOffset s (Source.le_size_of_isBoundary hstart) hsize
  obtain ⟨e, hname, he, hek⟩ := qualifiedName_end hstart hik hgreater
  obtain ⟨places, j, hslots⟩ := slots_standAt s e
  obtain ⟨⟨last, hresult, hlast⟩, hcursor'⟩ := attributesSpans_isBehindQuote hsize hslots he hon e
  rw [startToken_eq]
  simp only [hcursor.moveTo (Source.le_size_of_isBoundary hstart), hname]
  refine ⟨fun error herror => ?_, hcursor'⟩
  rw [result_startTag hoffset (by rw [hname]; exact hresult)] at herror
  -- Without attributes the search begins behind the name, and finds the `>` or one before it.
  rcases hlast with rfl | hquote
  · rcases seek_tagEnd_cases he with ⟨close, hclose⟩ | ⟨-, hnone⟩
    · rw [hclose] at herror
      cases herror
    · exact absurd hgreater (hnone k hek)
  · rcases seek_tagEnd_cases hquote.isBoundary with ⟨close, hclose⟩ | ⟨hfail, hnone⟩
    · rw [hclose] at herror
      cases herror
    · rw [hfail] at herror
      cases herror
      exact ⟨last, rfl, hquote, hnone⟩

/-- What a search backwards finds stands there. -/
theorem matchesAt_of_findLastBytes? {pattern : List UInt8} {lo n : Nat}
    (h : s.findLastBytes? pattern lo n = some k) :
    s.matchesAt pattern k = true ∧ k ≤ lo + n := by
  induction n with
  | zero =>
    rw [Source.findLastBytes?] at h
    split at h
    · next hmatch =>
      cases h
      exact ⟨hmatch, Nat.le_refl _⟩
    · cases h
  | succ n ih =>
    rw [Source.findLastBytes?] at h
    split at h
    · next hmatch =>
      cases h
      exact ⟨hmatch, Nat.le_refl _⟩
    · obtain ⟨hmatch, hle⟩ := ih h
      exact ⟨hmatch, Nat.le_succ_of_le hle⟩

/-- The last `</` in a text is inside it. -/
theorem byte?_of_findLast? {lo : Nat} (h : s.findLast? "</" lo stop = some i) :
    s.byte? (i + 1) = some (byteOf '/') ∧ i + 2 ≤ stop := by
  have hsize : "</".utf8ByteSize = 2 := by decide
  rw [Source.findLast?, hsize, bytes_endOpening] at h
  split at h
  · next hroom =>
    obtain ⟨hmatch, hle⟩ := matchesAt_of_findLastBytes? h
    simp only [Source.matchesAt, Bool.and_eq_true, beq_iff_eq] at hmatch
    exact ⟨hmatch.2.1, by omega⟩
  · cases h

/-- The token of an end tag does not fail, since its tag is looked for before the end of the
    element. -/
theorem endToken_failsOnly (hsize : s.size < UInt64.size) {extent : Extent} (h : IsTagged s extent)
    (hcursor : cursor.IsOn s) {token : Token} {last : LineCursor}
    (htoken : endToken? s extent cursor = some (token, last)) :
    token.FailsOnlyAtTagEnd s ∧ last.IsOn s := by
  obtain ⟨k, hstop, hgreater⟩ := h.closed
  unfold endToken? at htoken
  split at htoken
  · cases htoken
  · obtain ⟨i, hfind, htoken⟩ := Option.map_eq_some_iff.mp htoken
    obtain ⟨hslash, hle⟩ := byte?_of_findLast? hfind
    -- The name ends before the `>` of the element at the latest, so a search behind it finds that
    -- or another.
    have hne : i + 1 ≠ k := by
      rintro rfl
      rw [hslash] at hgreater
      exact absurd hgreater (by decide)
    have hstart := Source.isBoundary_succ hslash (by decide)
    have hoffset := LineIndex.offsetAt_atOffset s (Source.le_size_of_isBoundary hstart) hsize
    obtain ⟨e, hname, he, hek⟩ := qualifiedName_end hstart (show i + 2 ≤ k by omega) hgreater
    dsimp only at htoken
    rw [hcursor.moveTo (Source.le_size_of_isBoundary hstart)] at htoken
    cases htoken
    refine ⟨?_, LineCursor.isOn_atOffset (Source.le_size_of_isBoundary hstart)⟩
    rcases seek_tagEnd_cases he with ⟨close, hclose⟩ | ⟨-, hnone⟩
    · rw [← hname] at hclose
      exact failsOnlyAtTagEnd_of_ok (by rw [tokenSpans_endTag hoffset hclose])
    · exact absurd hgreater (hnone k hek)

/-- The token of a comment does not fail wherever the comment is. -/
theorem commentToken_failsOnly (hsize : s.size < UInt64.size) (extent : Extent)
    (hcursor : cursor.IsOn s) :
    (commentToken s extent cursor).1.FailsOnlyAtTagEnd s ∧
    (commentToken s extent cursor).2.IsOn s := by
  obtain ⟨i, hi, hmove⟩ := hcursor.isOn_moveTo (extent.start + 4)
  have hoffset := LineIndex.offsetAt_atOffset s hi hsize
  unfold commentToken
  dsimp only
  rw [hmove]
  refine ⟨failsOnlyAtTagEnd_of_ok ?_, LineCursor.isOn_atOffset hi⟩
  rw [tokenSpans, offsetOf_eq hoffset]
  rfl

/-! ### Scans -/

/-- **Step.** So does the token of a step, if any, at a node that has its tags. -/
theorem tokenAt_failsOnly (hsize : s.size < UInt64.size) {step : Step} (h : HasTags s step.node)
    (hcursor : cursor.IsOn s) {token : Token} {last : LineCursor}
    (htoken : tokenAt s cursor step = some (token, last)) :
    token.FailsOnlyAtTagEnd s ∧ last.IsOn s := by
  cases step with
  | enter place =>
    obtain ⟨⟨kind, extent, children⟩, later, above⟩ := place
    cases kind with
    | document => cases htoken
    | element values =>
      simp only [tokenAt, Node.kind, Node.extent, Option.some.injEq] at htoken
      have hfails := startToken_failsOnly hsize values (HasTags.isTagged h).opened hcursor
      rwa [htoken] at hfails
    | comment =>
      simp only [tokenAt, Node.kind, Node.extent, Option.some.injEq] at htoken
      have hfails := commentToken_failsOnly hsize extent hcursor
      rwa [htoken] at hfails
    | text | instruction =>
      simp only [tokenAt, Node.kind, Option.some.injEq, Prod.mk.injEq] at htoken
      obtain ⟨rfl, rfl⟩ := htoken
      exact ⟨failsOnlyAtTagEnd_of_ok rfl, hcursor.isOn_moveTo _⟩
  | leave place =>
    obtain ⟨⟨kind, extent, children⟩, later, above⟩ := place
    cases kind with
    | element values => exact endToken_failsOnly hsize (HasTags.isTagged h) hcursor htoken
    | document | text | comment | instruction => cases htoken

/-- **Run.** So do the tokens of all steps at such nodes. -/
theorem tokensAlong_failOnly (hsize : s.size < UInt64.size) {steps : List Step}
    (h : ∀ step ∈ steps, HasTags s step.node) (hcursor : cursor.IsOn s) :
    ∀ token ∈ (tokensAlong s cursor steps).1, token.FailsOnlyAtTagEnd s := by
  induction steps generalizing cursor with
  | nil => exact List.forall_mem_nil _
  | cons step rest ih =>
    obtain ⟨hstep, hrest⟩ := List.forall_mem_cons.mp h
    rw [tokensAlong]
    cases htoken : tokenAt s cursor step with
    | none => exact ih hrest hcursor
    | some found =>
      obtain ⟨token, last⟩ := found
      obtain ⟨hfails, hlast⟩ := tokenAt_failsOnly hsize hstep hcursor htoken
      exact List.forall_mem_cons.mpr ⟨hfails, ih hrest hlast⟩

/-- And so do the tokens of a document. -/
theorem tokensOf_failOnly (hsize : s.size < UInt64.size) {root : Node}
    (hparse : Xml.parse s = .ok root) :
    ∀ token ∈ (tokensOf s root).toList, token.FailsOnlyAtTagEnd s := by
  rw [tokensOf_eq]
  exact tokensAlong_failOnly hsize (parse_hasTags hparse).of_mem_walk ⟨0, Nat.zero_le _, rfl⟩

/-- A scan ends as its first token that fails. -/
theorem endingOver_of_failsOnlyAtTagEnd {tokens : List Token}
    (h : ∀ token ∈ tokens, token.FailsOnlyAtTagEnd s) :
    Scanner.endingOver s (.build s) (tokens.map .ok) = .ok .completed ∨
      ∃ i, Scanner.endingOver s (.build s) (tokens.map .ok) = .error (.misaligned .tagEnd i) ∧
        LacksTagEnd s i := by
  rw [Scanner.endingOver]
  -- The first item that fails decides how the scan ends.
  cases hfirst : (tokens.map Except.ok).findSome? (itemFailure s (.build s)) with
  | none => exact .inl rfl
  | some e =>
    obtain ⟨item, hitem, hfailure⟩ := List.exists_of_findSome?_eq_some hfirst
    obtain ⟨token, htoken, rfl⟩ := List.mem_map.mp hitem
    have hresult : (tokenSpans s (.build s) token).result = .error e := by
      rw [itemFailure] at hfailure
      split at hfailure
      · cases hfailure
      · next herror =>
        cases hfailure
        exact herror
    obtain ⟨i, rfl, hlacks⟩ := h token htoken e hresult
    exact .inr ⟨i, rfl, hlacks⟩

/-- A document without entities of its own is scanned to its end. -/
theorem endingOver_of_declaresNoEntities (hsize : s.size < UInt64.size) {root : Node}
    (hparse : Xml.parse s = .ok root) (hentities : DeclaresNoEntities s) :
    Scanner.endingOver s (.build s) ((tokensOf s root).toList.map .ok) = .ok .completed := by
  obtain ⟨⟨prolog, i⟩, hprolog, -⟩ := bind_eq_ok.mp hparse
  obtain ⟨nodes, rfl, hnodes⟩ := parse_standsAt hparse hprolog (hentities _ hprolog)
  have hclean := (tokensPaintWithin_document hsize hnodes).clean
  rw [Scanner.endingOver, List.findSome?_eq_none_iff.mpr hclean]

/-- **Ends of scans.** However a scan of a document is set up, and whenever it is asked to stop, it
    completes or stops, with two exceptions. It fails before it hands out anything if the document
    is not well formed. And it fails in a document that declares entities if it looks for the end of
    a tag behind a quote that no `>` follows. -/
theorem scan_failures (settings : Settings) (cancel : Nat → Bool) (hsize : s.size < UInt64.size) :
    let report := (documentPlan s (.build s) settings).run cancel
    report.ending = .ok .completed ∨ report.ending = .ok .preempted ∨
      (∃ e, Xml.parse s = .error e ∧ report.ending = .error (.malformed (e.message s)) ∧
        report.flushes = #[]) ∨
      ∃ root i, Xml.parse s = .ok root ∧ ¬DeclaresNoEntities s ∧
        report.ending = .error (.misaligned .tagEnd i) ∧ LacksTagEnd s i := by
  intro report
  by_cases hblank : isBlankText s.text = true
  · have hplan : documentPlan s (.build s) settings
      = ⟨#[.flush ⟨.complete, []⟩], .ok .completed⟩ := by
      rw [documentPlan, if_pos hblank]
    simp only [report, hplan]
    exact .inl rfl
  · cases hparse : Xml.parse s with
    | error e =>
      have hplan : documentPlan s (.build s) settings
        = ⟨#[], .error (.malformed (e.message s))⟩ := by
        rw [documentPlan, if_neg hblank, tokens, hparse]
        rfl
      simp only [report, hplan]
      exact .inr (.inr (.inl ⟨e, rfl, rfl, rfl⟩))
    | ok root =>
      have hplan : (documentPlan s (.build s) settings).ending
          = Scanner.endingOver s (.build s) ((tokensOf s root).toList.map .ok) := by
        rw [documentPlan, if_neg hblank, tokens, hparse]
        exact ending_planOf s _ true _ settings
      rcases Plan.runActions_cases cancel (documentPlan s (.build s) settings).ending
          (documentPlan s (.build s) settings).actions.toList (Plan.nothingDone _) with
        hrun | ⟨before, after, -, hrun⟩
      · -- The scan went to its end, which is the one its tokens give.
        have hending : report.ending = _ := congrArg Report.ending hrun
        rw [hplan] at hending
        rcases endingOver_of_failsOnlyAtTagEnd (tokensOf_failOnly hsize hparse) with hend
          | ⟨i, hend, hlacks⟩
        · exact .inl (hending.trans hend)
        · refine .inr (.inr (.inr ⟨root, i, rfl, fun hentities => ?_, hending.trans hend, hlacks⟩))
          rw [endingOver_of_declaresNoEntities hsize hparse hentities] at hend
          cases hend
      · exact .inr (.inl (congrArg Report.ending hrun))

/-- A document whose root element is not closed. -/
theorem scan_fails_at_once :
    let s := Source.ofText "<a>"
    let report := (documentPlan s (.build s) {}).run never
    s.size < UInt64.size ∧
      ∃ e, Xml.parse s = .error e ∧ report.ending = .error (.malformed (e.message s)) ∧
        report.flushes = #[] := by
  intro s report
  have hsize : s.size < UInt64.size := by decide +kernel
  have hcompleted : report.ending ≠ .ok .completed := by decide +kernel
  have hpreempted : report.ending ≠ .ok .preempted := by decide +kernel
  have hrefused : (Xml.parse s).isOk = false := by decide +kernel
  refine ⟨hsize, ?_⟩
  rcases scan_failures {} never hsize with h | h | h | ⟨root, i, hparse, -⟩
  · exact absurd h hcompleted
  · exact absurd h hpreempted
  · exact h
  · rw [hparse] at hrefused
    cases hrefused

/-- A document whose scan misses the end of a tag. The value of the attribute comes out of an
    entity, and is what the text goes on with behind the opening quote, up to the quote at its end.
    The element is closed inside another entity, so no `>` follows. -/
theorem scan_misses_tag_end :
    let s := Source.ofText
      "<!DOCTYPE a [<!ENTITY e '<b/></a>'><!ENTITY v '&#38;v;\">&#38;e;'>]><a x=\"&v;\">&e;\""
    (Xml.parse s).isOk = true ∧
      ((documentPlan s (.build s) {}).run never).ending = .error (.misaligned .tagEnd 82) := by
  decide +kernel

end XmlHighlight
