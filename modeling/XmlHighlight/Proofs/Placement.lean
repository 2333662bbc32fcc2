import Mathlib.Data.List.Forall2
import Mathlib.Tactic.ByContra
import XmlHighlight.Proofs.Batches
import XmlHighlight.Proofs.Bytes
import XmlHighlight.Xml.Name

/-!
# Placement — tokens that agree with a text, and what they paint

A token that agrees with a text stands somewhere in it, with its delimiters around it. The scanner
is told only the position of a name and finds the delimiters again by searching. It finds the right
ones whatever white space is left between them, and even if the values contain delimiters too.

* `TagAttribute.StandsAt`, `AttributesStandAt`, `Token.StandsAt` — tokens in agreement with a text;
* `Token.paintAt` — the spans that such a token should get;
* `valueLength_eq` — all ways to measure a value give the length of its text;
* `tokenSpans_of_standsAt` — a token in agreement with the text gets exactly these spans;
* `scan_paints_placed_tokens` — and so does a scan over any number of them.
-/

namespace XmlHighlight

open Xml (isSpace)

/-! ### Agreement with a text -/

/-- Where an attribute stands: the offsets of its name, of `=`, and of the quotes around the
    value. -/
structure AttributePlace where
  start : Nat
  equals : Nat
  opening : Nat
  closing : Nat
  deriving DecidableEq, Repr

/-- The length of the value as written. -/
def AttributePlace.valueLength (place : AttributePlace) : Nat := place.closing - (place.opening + 1)

/-- The byte of an ASCII character. -/
def byteOf (c : Char) : UInt8 := c.toUInt8

variable (s : Source) (index : LineIndex)

/-- An attribute is written at a place: a name, `=` with white space around it, and a value in
    quotes that does not contain its quote. The decoded value is not longer than the value as
    written. -/
structure TagAttribute.StandsAt (attr : TagAttribute) (place : AttributePlace) : Prop where
  offset : index.offsetAt attr.pos = .ok place.start
  name : s.matchesAt attr.name.toByteArray.toList place.start = true
  name_le : place.start + attr.name.utf8ByteSize ≤ place.equals
  before : s.AllBytes isSpace (place.start + attr.name.utf8ByteSize) place.equals
  equals : s.byte? place.equals = some (byteOf '=')
  equals_lt : place.equals < place.opening
  after : s.AllBytes isSpace (place.equals + 1) place.opening
  quote : attr.quote = '"' ∨ attr.quote = '\''
  opening : s.byte? place.opening = some (byteOf attr.quote)
  opening_lt : place.opening < place.closing
  value : s.AllBytes (· != byteOf attr.quote) (place.opening + 1) place.closing
  closing : s.byte? place.closing = some (byteOf attr.quote)
  decoded_le : attr.value.utf8ByteSize ≤ place.valueLength

/-- Attributes are written one after the other from offset `i` on; the last of them ends before
    `j`. -/
inductive AttributesStandAt : Nat → List TagAttribute → List AttributePlace → Nat → Prop where
  | nil (i : Nat) : AttributesStandAt i [] [] i
  | cons {i j : Nat} {attr : TagAttribute} {place : AttributePlace} {attrs : List TagAttribute}
      {places : List AttributePlace} (le_start : i ≤ place.start)
      (first : attr.StandsAt s index place)
      (rest : AttributesStandAt (place.closing + 1) attrs places j) :
      AttributesStandAt i (attr :: attrs) (place :: places) j

/-- Where a token stands: the offset at which its markup begins, and for a tag the offset of the
    delimiter that ends it. A piece that is not painted has no place. -/
inductive TokenPlace where
  | startTag (start : Nat) (attributes : List AttributePlace) (close : Nat)
  | endTag (start close : Nat)
  | comment (body : Nat)
  | unpainted
  deriving DecidableEq, Repr

/-- A token agrees with the text at a place. -/
inductive Token.StandsAt : Token → TokenPlace → Prop where
  /-- `<`, a name, attributes, white space, and `/>` or `>`. -/
  | startTag {name : String} {pos : TextPos} {attrs : List TagAttribute} {empty : Bool}
      {start close last : Nat} {places : List AttributePlace}
      (offset : index.offsetAt pos = .ok (start + 1))
      (opening : s.byte? start = some (byteOf '<'))
      (name_at : s.matchesAt name.toByteArray.toList (start + 1) = true)
      (attributes : AttributesStandAt s index (start + 1 + name.utf8ByteSize) attrs places last)
      (last_le : last ≤ close) (spaces : s.AllBytes isSpace last close)
      (closing : if empty then s.byte? close = some (byteOf '/') ∧
        s.byte? (close + 1) = some (byteOf '>')
        else s.byte? close = some (byteOf '>')) :
      StandsAt (.startTag name pos attrs empty) (.startTag start places close)
  /-- `</`, a name, white space, and `>`. -/
  | endTag {name : String} {pos : TextPos} {start close : Nat}
      (offset : index.offsetAt pos = .ok (start + 2))
      (opening : s.byte? start = some (byteOf '<'))
      (slash : s.byte? (start + 1) = some (byteOf '/'))
      (name_at : s.matchesAt name.toByteArray.toList (start + 2) = true)
      (name_le : start + 2 + name.utf8ByteSize ≤ close)
      (spaces : s.AllBytes isSpace (start + 2 + name.utf8ByteSize) close)
      (closing : s.byte? close = some (byteOf '>')) :
      StandsAt (.endTag name pos) (.endTag start close)
  | comment {body : String} {pos : TextPos} {start : Nat} (offset : index.offsetAt pos = .ok start)
      (body_at : s.matchesAt body.toByteArray.toList start = true) :
      StandsAt (.comment body pos) (.comment start)
  | lone (attr : TagAttribute) : StandsAt (.lone attr) .unpainted
  | text (pos : TextPos) (length : Nat) : StandsAt (.text pos length) .unpainted
  | instruction (pos : TextPos) : StandsAt (.instruction pos) .unpainted

/-! ### What is to be painted -/

/-- An attribute at a place: its name, its `=`, and its whole value as written, unless that is
    empty. -/
def TagAttribute.paintAt (attr : TagAttribute) (place : AttributePlace) : List Span :=
  span place.start attr.name.utf8ByteSize .attributeName ++ [⟨place.equals, 1, .delimiter⟩]
    ++ span (place.opening + 1) place.valueLength .attributeValue

/-- A token at a place. -/
def Token.paintAt : Token → TokenPlace → List Span
  | .startTag name _ attrs empty, .startTag start places close =>
    [⟨start, 1, .delimiter⟩] ++ span (start + 1) name.utf8ByteSize .elementName
      ++ (attrs.zipWith TagAttribute.paintAt places).flatten
      ++ [⟨close, if empty then 2 else 1, .delimiter⟩]
  | .endTag name _, .endTag start close =>
    [⟨start, 2, .delimiter⟩] ++ span (start + 2) name.utf8ByteSize .elementName
      ++ [⟨close, 1, .delimiter⟩]
  | .comment body _, .comment start => span start body.utf8ByteSize .comment
  | _, _ => []

/-! ### The length of a value -/

variable {s index}

/-- A quote is written as an entity, so it is not among the characters that stand for a
    character. -/
theorem quote_not_mem_escapedChar {quote : Char} (hq : quote = '"' ∨ quote = '\'') (c : Char) :
    quote ∉ (escapedChar quote c).toList := by
  unfold escapedChar
  split
  · rcases hq with rfl | rfl <;> decide
  · rcases hq with rfl | rfl <;> decide
  · rcases hq with rfl | rfl <;> decide
  · rcases hq with rfl | rfl <;> decide
  · next h1 h2 h3 h4 =>
    rw [String.toList_singleton, List.mem_singleton]
    rintro rfl
    rcases hq with rfl | rfl
    · exact h3 rfl
    · exact h4 rfl

/-- A value is escaped one character at a time. -/
theorem toList_escapedValue (value : String) (quote : Char) :
    (escapedValue value quote).toList
      = value.toList.flatMap fun c => (escapedChar quote c).toList := by
  have hfold : ∀ (chars : List Char) (text : String),
      (chars.foldl (fun text c => text ++ escapedChar quote c) text).toList
        = text.toList ++ chars.flatMap fun c => (escapedChar quote c).toList := by
    intro chars
    induction chars with
    | nil => simp
    | cons c rest ih => intro text; simp [ih]
  rw [escapedValue, hfold, String.toList_empty, List.nil_append]

/-- An escaped value does not contain its quote. -/
theorem quote_not_mem_escapedValue {quote : Char} (hq : quote = '"' ∨ quote = '\'')
    (value : String) : quote ∉ (escapedValue value quote).toList := by
  rw [toList_escapedValue, List.mem_flatMap]
  rintro ⟨c, -, hc⟩
  exact quote_not_mem_escapedChar hq c hc

/-- A quote is an ASCII character. -/
theorem quote_ascii {quote : Char} (hq : quote = '"' ∨ quote = '\'') :
    quote.utf8Size = 1 ∧ byteOf quote < 128 ∧ Char.ofUInt8 (byteOf quote) = quote := by
  rcases hq with rfl | rfl <;> decide

/-- A text followed by a quote is as long as the value that begins there, if it is not longer. -/
theorem size_of_isQuotedAt {i j : Nat} {text : String} {quote : Char}
    (hq : quote = '"' ∨ quote = '\'') (hvalue : s.AllBytes (· != byteOf quote) i j)
    (hle : text.utf8ByteSize ≤ j - i) (h : isQuotedAt s text quote i = true) :
    text.utf8ByteSize = j - i := by
  obtain ⟨hsize, -, -⟩ := quote_ascii hq
  simp only [isQuotedAt, Bool.and_eq_true, bytes_singleton hsize] at h
  by_contra hne
  exact hvalue.ne (by simp [byteOf]) (by omega) (by omega) (Source.matchesAt_singleton.mp h.2)

/-- A text without quotes that stands where a value begins is not longer than the value. -/
theorem size_le_of_matchesAt {i j : Nat} {text : String} {quote : Char}
    (hq : quote = '"' ∨ quote = '\'') (hij : i ≤ j) (hclosing : s.byte? j = some (byteOf quote))
    (htext : quote ∉ text.toList) (h : s.matchesAt text.toByteArray.toList i = true) :
    text.utf8ByteSize ≤ j - i := by
  obtain ⟨-, hascii, hchar⟩ := quote_ascii hq
  by_contra hlt
  -- The closing quote would be one of the bytes of the text.
  have hk : j - i < text.toByteArray.toList.length := by rw [length_bytes]; omega
  have hbyte := Source.byte?_of_matchesAt h hk
  rw [Nat.add_sub_cancel' hij, hclosing, Option.some.injEq] at hbyte
  exact not_mem_bytes hascii (by rwa [hchar]) (hbyte ▸ List.getElem_mem hk)

/-- The length of a value is the distance to its closing quote, unless the value stands there as it
    is. -/
theorem valueLength_eq_ite {i j : Nat} (value : String) {quote : Char}
    (hq : quote = '"' ∨ quote = '\'')
    (hi : s.isBoundary i = true) (hij : i ≤ j)
    (hvalue : s.AllBytes (· != byteOf quote) i j) (hclosing : s.byte? j = some (byteOf quote)) :
    valueLength s i value quote
      = if isQuotedAt s value quote i then value.utf8ByteSize else j - i := by
  rw [valueLength, if_pos hi]
  split
  · rfl
  · dsimp only
    split
    · next h =>
      refine size_of_isQuotedAt hq hvalue ?_ h
      rw [isQuotedAt, Bool.and_eq_true] at h
      exact size_le_of_matchesAt hq hij hclosing (quote_not_mem_escapedValue hq value) h.1
    · rw [Source.find?_eq (quote_ascii hq).1 hi hij hclosing
        (fun k hik hkj => hvalue.ne (by simp [byteOf]) hik hkj)]

/-- **Value length.** Each of the three ways to measure a value gives the distance to its closing
    quote. -/
theorem valueLength_eq {i j : Nat} {value : String} {quote : Char} (hq : quote = '"' ∨ quote = '\'')
    (hi : s.isBoundary i = true) (hij : i ≤ j)
    (hvalue : s.AllBytes (· != byteOf quote) i j) (hclosing : s.byte? j = some (byteOf quote))
    (hle : value.utf8ByteSize ≤ j - i) : valueLength s i value quote = j - i := by
  rw [valueLength_eq_ite value hq hi hij hvalue hclosing]
  split
  · next h => exact size_of_isQuotedAt hq hvalue hle h
  · rfl

/-! ### A token in agreement with the text -/

/-- A computation that has found spans goes on with its value. -/
theorem Painting.bind_ok {α β : Type} (spans : List Span) (a : α) (f : α → Painting β) :
    ((⟨spans, .ok a⟩ : Painting α) >>= f) = ⟨spans ++ (f a).spans, (f a).result⟩ := rfl

theorem Painting.pure_eq {α : Type} (a : α) : (Pure.pure a : Painting α) = ⟨[], .ok a⟩ := rfl

theorem span_one (start : Nat) (style : StyleClass) : span start 1 style = [⟨start, 1, style⟩] :=
  rfl

/-- A position that has an offset is taken to it without a span. -/
theorem offsetOf_eq {pos : TextPos} {i : Nat} (h : index.offsetAt pos = .ok i) :
    offsetOf index pos = ⟨[], .ok i⟩ := by
  rw [offsetOf, h]
  rfl

/-- A search passes over the bytes before a landmark and stops at it. -/
theorem seek_eq {c : Char} (landmark : Landmark) {i j : Nat} {p : UInt8 → Bool}
    (hc : c.utf8Size = 1) (hi : s.isBoundary i = true) (hij : i ≤ j) (h : s.AllBytes p i j)
    (hp : p (byteOf c) = false) (hj : s.byte? j = some (byteOf c)) :
    seek s c landmark i = ⟨[], .ok j⟩ := by
  rw [seek, Source.find?_eq hc hi hij hj (fun k hik hkj => h.ne hp hik hkj)]
  rfl

theorem lt_of_isSpace {b : UInt8} (h : isSpace b = true) : b < 128 := by
  simp only [isSpace, Bool.or_eq_true, beq_iff_eq] at h
  rcases h with ((rfl | rfl) | rfl) | rfl <;> decide

/-- White space and what follows it are made of ASCII bytes. -/
theorem isBoundary_of_spaces {i j : Nat} {b : UInt8} (hij : i ≤ j) (h : s.AllBytes isSpace i j)
    (hj : s.byte? j = some b) (hb : b < 128) : s.isBoundary i = true :=
  h.isBoundary_left (fun _ => lt_of_isSpace) hij (Source.isBoundary_of_ascii hj hb)

/-- An attribute in agreement with the text gets its spans, and its end is found. -/
theorem attributeSpans_of_standsAt {attr : TagAttribute} {place : AttributePlace}
    (h : attr.StandsAt s index place) :
    attributeSpans s index attr = ⟨attr.paintAt place, .ok (place.closing + 1)⟩ := by
  obtain ⟨hsize, hascii, -⟩ := quote_ascii h.quote
  have heq := seek_eq .equals (by decide)
    (isBoundary_of_spaces h.name_le h.before h.equals (by decide)) h.name_le h.before
      (by decide) h.equals
  have hopening := seek_eq .openingQuote hsize
    (Source.isBoundary_succ h.equals (by decide)) h.equals_lt h.after
    (by rcases h.quote with hq | hq <;> rw [hq] <;> decide) h.opening
  -- The closing quote is found where it stands, even if the decoded value is shorter.
  have hlength : valueLength s (place.opening + 1) attr.value attr.quote = place.valueLength :=
    valueLength_eq h.quote (Source.isBoundary_succ h.opening hascii) h.opening_lt h.value h.closing
      h.decoded_le
  have hend : place.opening + 1 + place.valueLength + 1 = place.closing + 1 := by
    have := h.opening_lt
    unfold AttributePlace.valueLength
    omega
  simp only [attributeSpans, offsetOf_eq h.offset, paint, heq, hopening, hlength, hsize,
    Painting.bind_ok, Painting.pure_eq, hend, TagAttribute.paintAt, span_one, List.nil_append,
    List.append_nil, List.append_assoc]

/-- The spans of attributes that stand in the text are painted where they stand. -/
theorem attributesSpans_of_standAt {i j : Nat} {attrs : List TagAttribute}
    {places : List AttributePlace} (h : AttributesStandAt s index i attrs places j) :
    attributesSpans s index i attrs
      = ⟨(attrs.zipWith TagAttribute.paintAt places).flatten, .ok j⟩ := by
  induction h with
  | nil i => rfl
  | cons _ first _ ih =>
    rw [attributesSpans, attributeSpans_of_standsAt first, Painting.bind_ok, ih]
    rfl

theorem span_two (start : Nat) (style : StyleClass) : span start 2 style = [⟨start, 2, style⟩] :=
  rfl

/-- The end of a tag is found past white space and the slash of an empty element. -/
theorem seek_close {empty : Bool} {last close : Nat} (last_le : last ≤ close)
    (spaces : s.AllBytes isSpace last close)
    (closing : if empty then s.byte? close = some (byteOf '/') ∧
    s.byte? (close + 1) = some (byteOf '>')
      else s.byte? close = some (byteOf '>')) :
    seek s '>' .tagEnd last = ⟨[], .ok (if empty then close + 1 else close)⟩ := by
  cases empty with
  | false =>
    exact seek_eq .tagEnd (by decide) (isBoundary_of_spaces last_le spaces closing (by decide))
      last_le spaces
      (by decide) closing
  | true =>
    obtain ⟨hslash, hend⟩ := closing
    have hall : s.AllBytes (fun b => isSpace b || b == byteOf '/') last (close + 1) := by
      refine (spaces.mono fun b hb => ?_).append (Source.allBytes_of_byte? hslash (by decide))
      rw [hb, Bool.true_or]
    exact seek_eq .tagEnd (by decide) (isBoundary_of_spaces last_le spaces hslash (by decide))
      (Nat.le_succ_of_le last_le) hall (by decide) hend

/-- A start tag gets its spans once its attributes have been painted and its end has been found. -/
theorem tokenSpans_startTag {name : String} {pos : TextPos} {attrs : List TagAttribute}
    {empty : Bool}
    {start last close : Nat} {spans : List Span} (offset : index.offsetAt pos = .ok (start + 1))
    (hattrs : attributesSpans s index (start + 1 + name.utf8ByteSize) attrs = ⟨spans, .ok last⟩)
    (hclose : seek s '>' .tagEnd last = ⟨[], .ok (if empty then close + 1 else close)⟩) :
    tokenSpans s index (.startTag name pos attrs empty)
      = ⟨[⟨start, 1, .delimiter⟩] ++ span (start + 1) name.utf8ByteSize .elementName ++ spans
          ++ [⟨close, if empty then 2 else 1, .delimiter⟩], .ok ()⟩ := by
  have hnot : start + 1 ≠ 0 := by omega
  simp only [tokenSpans, offsetOf_eq offset, Painting.bind_ok, if_neg hnot, paint, hattrs, hclose,
    List.nil_append, Nat.add_sub_cancel, span_one]
  cases empty with
  | true => simp [span_two]
  | false => simp

/-- An end tag gets its spans once its end has been found. -/
theorem tokenSpans_endTag {name : String} {pos : TextPos} {start close : Nat}
    (offset : index.offsetAt pos = .ok (start + 2))
    (hclose : seek s '>' .tagEnd (start + 2 + name.utf8ByteSize) = ⟨[], .ok close⟩) :
    tokenSpans s index (.endTag name pos)
      = ⟨[⟨start, 2, .delimiter⟩] ++ span (start + 2) name.utf8ByteSize .elementName
          ++ [⟨close, 1, .delimiter⟩], .ok ()⟩ := by
  have hnot : ¬ start + 2 < 2 := by omega
  simp only [tokenSpans, offsetOf_eq offset, Painting.bind_ok, if_neg hnot, paint, hclose,
    List.nil_append, Nat.add_sub_cancel, span_one, span_two, List.append_assoc]

/-- **Token by token.** A token in agreement with the text gets the spans of its place. -/
theorem tokenSpans_of_standsAt {token : Token} {place : TokenPlace}
    (h : token.StandsAt s index place) :
    tokenSpans s index token = ⟨token.paintAt place, .ok ()⟩ := by
  cases h with
  | startTag offset _ _ attributes last_le spaces closing =>
    rw [tokenSpans_startTag offset (attributesSpans_of_standAt attributes)
      (seek_close last_le spaces closing), Token.paintAt]
  | @endTag name pos start close offset _ _ _ name_le spaces closing =>
    have hclose : seek s '>' .tagEnd (start + 2 + name.utf8ByteSize) = ⟨[], .ok close⟩ :=
      seek_eq .tagEnd (by decide) (isBoundary_of_spaces name_le spaces closing (by decide)) name_le
        spaces (by decide) closing
    rw [tokenSpans_endTag offset hclose, Token.paintAt]
  | comment offset _ =>
    rw [tokenSpans, offsetOf_eq offset, Painting.bind_ok]
    rfl
  | lone | text | instruction => rfl

/-! ### Scans -/

/-- The spans of tokens that stand in the text are painted where they stand. -/
theorem itemsSpans_of_standAt {tokens : List Token} {places : List TokenPlace}
    (h : List.Forall₂ (Token.StandsAt s index) tokens places) :
    itemsSpans s index (tokens.map .ok) = (tokens.zipWith Token.paintAt places).flatten := by
  induction h with
  | nil => rfl
  | cons first _ ih =>
    rw [List.map_cons, List.zipWith_cons_cons, List.flatten_cons, ← ih]
    rw [itemsSpans, List.flatMap_cons, itemSpans, tokenSpans_of_standsAt first]
    rfl

/-- Nothing fails on the way. -/
theorem itemFailure_of_standAt {tokens : List Token} {places : List TokenPlace}
    (h : List.Forall₂ (Token.StandsAt s index) tokens places) :
    ∀ item ∈ tokens.map Except.ok, itemFailure s index item = none := by
  induction h with
  | nil => exact List.forall_mem_nil _
  | cons first _ ih =>
    rw [List.map_cons, List.forall_mem_cons]
    exact ⟨by rw [itemFailure, tokenSpans_of_standsAt first], ih⟩

/-- **Exactness.** A scan over tokens in agreement with the text completes, whatever its settings.
    It hands out the spans of their places, token after token, and nothing else. -/
theorem scan_paints_placed_tokens {tokens : List Token} {places : List TokenPlace}
    (settings : Settings) (h : List.Forall₂ (Token.StandsAt s index) tokens places) :
    let report := (planOf s index settings true (tokens.map .ok)).run never
    report.ending = .ok .completed ∧
      report.spans = (tokens.zipWith Token.paintAt places).flatten := by
  intro report
  rw [← itemsSpans_of_standAt h]
  exact scan_completes s index _ settings (itemFailure_of_standAt h)

/-- A value with delimiters in it, and one with a reference. -/
theorem scan_paints_attributes :
    let s := Source.ofText "<a b='>=' c = \"1&lt;2\" />"
    let b : TagAttribute := ⟨"b", ">=", '\'', ⟨1, 4⟩⟩
    let c : TagAttribute := ⟨"c", "1<2", '"', ⟨1, 11⟩⟩
    let places : List AttributePlace := [⟨3, 4, 5, 8⟩, ⟨10, 12, 14, 21⟩]
    List.Forall₂ (Token.StandsAt s (.build s)) [.startTag "a" ⟨1, 2⟩ [b, c] true]
        [.startTag 0 places 23] ∧
      ((planOf s (.build s) {} true [.ok (.startTag "a" ⟨1, 2⟩ [b, c] true)]).run never).spans
        = [⟨0, 1, .delimiter⟩, ⟨1, 1, .elementName⟩, ⟨3, 1, .attributeName⟩, ⟨4, 1, .delimiter⟩,
          ⟨6, 2, .attributeValue⟩, ⟨10, 1, .attributeName⟩, ⟨12, 1, .delimiter⟩,
          ⟨15, 6, .attributeValue⟩, ⟨23, 2, .delimiter⟩] := by
  intro s b c places
  have hb : b.StandsAt s (.build s) ⟨3, 4, 5, 8⟩ := by
    constructor <;> decide +kernel
  have hc : c.StandsAt s (.build s) ⟨10, 12, 14, 21⟩ := by
    constructor <;> decide +kernel
  have htag : Token.StandsAt s (.build s) (.startTag "a" ⟨1, 2⟩ [b, c] true)
      (.startTag 0 places 23) := by
    refine .startTag ?_ ?_ ?_ (.cons ?_ hb (.cons ?_ hc (.nil _))) ?_ ?_ ?_ <;> decide +kernel
  have hplaced := List.Forall₂.cons htag .nil
  exact ⟨hplaced, (scan_paints_placed_tokens {} hplaced).2⟩

end XmlHighlight
