import XmlHighlight.Proofs.Replacement
import XmlHighlight.Scan.Plan

/-!
# Careful scans — nothing is done that must not be done

Some operations must not be carried out on some operands: a text is not cut inside a character or
behind its end, a number is not taken from a smaller one, nothing is divided by zero, and a sum of
offsets is a 64-bit word. A careful scan checks all this before it does anything, and searches in
texts that it has cut off. It never comes upon a fault, whatever the tokens say, as long as the sums
for their positions are words; and then it does what a scan does.

* `Fault`, `Careful` — what must not happen, and computations that check for it;
* `Source.byte?_tail`, `Source.find?_tail` — the text behind an offset, and searches in it;
* `Careful.seek_eq_lift`, `Careful.valueLength_eq_ok` — what is looked for in a text that has been
  cut off;
* `Careful.tokenSpans_eq_lift` — a token, whatever it says;
* `Careful.take_eq_ok`, `Careful.takeAll_eq_ok` — an item, and all of them;
* `Careful.planOf_eq_ok` — a whole scan.
-/

namespace XmlHighlight

/-! ### Faults -/

/-- Something that must not happen. -/
inductive Fault where
  /-- A text is cut behind its end, or inside a character. -/
  | cut
  /-- A number is taken from a smaller one. -/
  | difference
  /-- A number is divided by zero. -/
  | division
  /-- A sum of offsets is not a 64-bit word. -/
  | sum
  deriving DecidableEq, Repr

/-- A computation that finds spans, and checks what it does. -/
abbrev Careful (α : Type) := ExceptT Fault Painting α

namespace Careful

/-- The text from an offset to the end. -/
def cut (s : Source) (i : Nat) : Except Fault Source :=
  match s.slice? i s.size with
  | some text => .ok (.ofText text)
  | none => .error .cut

/-- Subtraction, which must not go below zero. -/
def difference (n m : Nat) : Except Fault Nat := if m ≤ n then .ok (n - m) else .error .difference

/-- Division, whose divisor must not be zero. -/
def quotient (n m : Nat) : Except Fault Nat := if m = 0 then .error .division else .ok (n / m)

/-- The remainder of a division, whose divisor must not be zero. -/
def remainder (n m : Nat) : Except Fault Nat := if m = 0 then .error .division else .ok (n % m)

/-- Addition, whose result must fit into a word. -/
def sum (i j : Nat) : Except Fault Nat := if i + j < UInt64.size then .ok (i + j) else .error .sum

variable {α β : Type}

/-- A computation that has nothing to check. -/
def lift (p : Painting α) : Careful α := ExceptT.lift p

/-- Something that has been checked. -/
def check (r : Except Fault α) : Careful α := ExceptT.mk (Painting.pure r)

/-- What has been found, unless there was a fault. -/
def outcome (c : Careful α) : Except Fault (Painting α) :=
  match c.run.result with
  | .ok (.ok a) => .ok ⟨c.run.spans, .ok a⟩
  | .ok (.error fault) => .error fault
  | .error e => .ok ⟨c.run.spans, .error e⟩

theorem check_bind (a : α) (f : α → Careful β) : (check (.ok a) >>= f) = f a := rfl

theorem lift_pure_bind (a : α) (f : α → Careful β) : (lift (pure a) >>= f) = f a := rfl

/-- Careful painting that takes no risk paints as before. -/
theorem run_lift (p : Painting α) : (lift p).run = ⟨p.spans, p.result.map .ok⟩ := by
  obtain ⟨spans, result⟩ := p
  cases result with
  | error e => rfl
  | ok a =>
    show (⟨spans ++ [], .ok (.ok a)⟩ : Painting (Except Fault α)) = _
    rw [List.append_nil]
    rfl

/-- A computation without faults goes on without faults if the rest has none behind the value it
    gives. -/
theorem lift_bind {p : Painting α} {f : α → Careful β} {g : α → Painting β}
    (h : ∀ a, p.result = .ok a → f a = lift (g a)) : (lift p >>= f) = lift (p >>= g) := by
  obtain ⟨spans, result⟩ := p
  cases result with
  | error e => rfl
  | ok a =>
    have hlift : lift (⟨spans, .ok a⟩ : Painting α) = ExceptT.mk ⟨spans, .ok (.ok a)⟩ := run_lift _
    rw [hlift]
    show ExceptT.mk (⟨spans ++ (f a).run.spans, (f a).run.result⟩ : Painting (Except Fault β)) = _
    rw [h a rfl, run_lift]
    exact (run_lift (⟨spans, .ok a⟩ >>= g)).symm

/-- Careful painting that takes no risk has no fault. -/
theorem outcome_lift (p : Painting α) : (lift p).outcome = .ok p := by
  rw [outcome, run_lift]
  obtain ⟨spans, result⟩ := p
  cases result with
  | error e => rfl
  | ok a => rfl

/-! ### Positions -/

/-- The offset of a position, by a sum that is checked. -/
def offsetAt (index : LineIndex) (pos : TextPos) : Except Fault (Except LineIndexError Nat) :=
  match index.offsetOfLine pos.line with
  | .error e => .ok (.error e)
  | .ok start => do
    let offset ← sum start (pos.column - 1)
    if pos.column = 0 ∨ index.size < offset then
      return .error (.pastEnd pos.line pos.column index.size)
    else return .ok offset

end Careful

/-- The sum of the start of the line and of the columns before a position is a 64-bit word, if there
    is such a line. -/
def TextPos.Fits (index : LineIndex) (pos : TextPos) : Prop :=
  ∀ start, index.offsetOfLine pos.line = .ok start → start + (pos.column - 1) < UInt64.size

/-- Finding the offset of a position whose sum fits has no fault. -/
theorem Careful.offsetAt_eq_ok {index : LineIndex} {pos : TextPos} (h : pos.Fits index) :
    Careful.offsetAt index pos = .ok (index.offsetAt pos) := by
  unfold Careful.offsetAt LineIndex.offsetAt
  cases hline : index.offsetOfLine pos.line with
  | error e => rfl
  | ok start =>
    have hfits := h start hline
    have hsum : offsetSum start (pos.column - 1) = start + (pos.column - 1) :=
      Nat.mod_eq_of_lt hfits
    simp only [Careful.sum, if_pos hfits, hsum]
    show (if _ then _ else _) = _
    split
    · rfl
    · rfl

/-! ### The text behind an offset -/

namespace Source

variable {s : Source} {i : Nat}

/-- The text behind an offset. -/
def tail (s : Source) (i : Nat) : Source := .ofText (s.slice i s.size)

/-- The tail at a boundary is what is left of the text behind its first bytes. -/
theorem exists_append_tail (hi : s.isBoundary i = true) :
    ∃ p : String, s.text = p ++ (s.tail i).text ∧ p.utf8ByteSize = i := by
  obtain ⟨p, x, htext, rfl⟩ := exists_append_of_isBoundary hi
  have hwhole : s.text = p ++ x ++ "" := by rw [htext, String.append_empty]
  have hsize : s.size = (p ++ x).utf8ByteSize := by rw [size_eq, htext]
  have hslice : s.slice p.utf8ByteSize s.size = x := by
    rw [slice, hsize, StyledBuffer.slice?_append hwhole, Option.getD_some]
  exact ⟨p, by rw [htext, tail, hslice]; rfl, rfl⟩

/-- Its bytes are those behind the offset. -/
theorem byte?_tail (hi : s.isBoundary i = true) (k : Nat) :
    (s.tail i).byte? k = s.byte? (i + k) := by
  obtain ⟨p, htext, rfl⟩ := exists_append_tail hi
  have hle : p.toByteArray.toList.length ≤ p.utf8ByteSize + k := by
    rw [length_bytes]
    exact Nat.le_add_right _ _
  rw [← getElem?_bytes s, htext, StyledBuffer.bytes_append, List.getElem?_append_right hle,
    length_bytes, Nat.add_sub_cancel_left, getElem?_bytes]

/-- The tail at a boundary is shorter than the text by that many bytes. -/
theorem size_tail (hi : s.isBoundary i = true) : (s.tail i).size = s.size - i := by
  obtain ⟨p, htext, rfl⟩ := exists_append_tail hi
  have hsize : s.size = p.utf8ByteSize + (s.tail p.utf8ByteSize).size := by
    rw [size_eq, size_eq, ← String.utf8ByteSize_append, ← htext]
  omega

/-- What stands in the tail stands in the text, further on. -/
theorem matchesAt_tail (hi : s.isBoundary i = true) (pattern : List UInt8) (k : Nat) :
    (s.tail i).matchesAt pattern k = s.matchesAt pattern (i + k) := by
  induction pattern generalizing k with
  | nil => rfl
  | cons b rest ih =>
    rw [matchesAt, matchesAt, byte?_tail hi, ih]
    rfl

/-- What is found in the tail is found in the text, further on. -/
theorem findBytes?_tail (hi : s.isBoundary i = true) (pattern : List UInt8) (k : Nat) :
    ((s.tail i).findBytes? pattern k).map (i + ·) = s.findBytes? pattern (i + k) := by
  -- The induction follows the search in the part, and the whole text is searched one step at a time
  -- with it.
  fun_induction findBytes? (s.tail i) pattern k with
  | case1 k hmatch =>
    rw [matchesAt_tail hi] at hmatch
    rw [findBytes?, if_pos hmatch]
    rfl
  | case2 k hmatch hlt ih =>
    rw [matchesAt_tail hi] at hmatch
    rw [size_tail hi] at hlt
    have hstep : s.findBytes? pattern (i + k) = s.findBytes? pattern (i + (k + 1)) := by
      rw [findBytes?, if_neg hmatch, if_pos (by omega)]
      rfl
    rw [hstep, ih]
  | case3 k hmatch hlt =>
    rw [matchesAt_tail hi] at hmatch
    rw [size_tail hi] at hlt
    rw [findBytes?, if_neg hmatch, if_neg (by omega)]
    rfl

/-- **Searches.** What is found in the text behind an offset is what is found in the whole text from
    there on. -/
theorem find?_tail (hi : s.isBoundary i = true) (word : String) :
    ((s.tail i).find? word 0).map (i + ·) = s.find? word i := by
  rw [find?, find?, if_pos (isBoundary_zero _), if_pos hi, findBytes?_tail hi]
  rfl

/-- A text at the beginning of another one ends between characters. -/
theorem isBoundary_of_matchesAt {word : String} (h : s.matchesAt word.toByteArray.toList 0 = true) :
    s.isBoundary word.utf8ByteSize = true := by
  have hbytes : s.text.toByteArray.toList.take word.utf8ByteSize = word.toByteArray.toList := by
    refine List.ext_getElem? fun k => ?_
    rw [List.getElem?_take]
    split
    · next hk =>
      rw [← length_bytes] at hk
      rw [getElem?_bytes, List.getElem?_eq_getElem hk, ← byte?_of_matchesAt h hk, Nat.zero_add]
    · next hk =>
      rw [← length_bytes] at hk
      exact (List.getElem?_eq_none (Nat.le_of_not_lt hk)).symm
  obtain ⟨x, htext⟩ := prefix_of_bytes hbytes
  exact isBoundary_of_append htext

/-- A character that stands in a text ends in it. -/
theorem utf8Size_le_of_matchesAt {c : Char}
    (h : s.matchesAt (String.singleton c).toByteArray.toList i = true) :
    i + c.utf8Size ≤ s.size := by
  have hlength : (String.singleton c).toByteArray.toList.length = c.utf8Size := by
    rw [length_bytes, String.utf8ByteSize_singleton]
  have hpos := Char.utf8Size_pos c
  have hlast : c.utf8Size - 1 < (String.singleton c).toByteArray.toList.length := by omega
  have hlt := lt_size_of_byte? (byte?_of_matchesAt h hlast)
  omega

end Source

namespace Careful

variable (s : Source) (index : LineIndex)

/-- The text behind an offset, if that lies between characters. -/
def tail? (i : Nat) : Except Fault (Option Source) :=
  if s.isBoundary i then (cut s i).map some else .ok none

/-- A checked slice of the rest of the text has no fault at any offset. -/
theorem tail?_eq_ok (i : Nat) :
    tail? s i = .ok (if s.isBoundary i then some (s.tail i) else none) := by
  unfold tail?
  split
  · next hi =>
    have hle := Source.le_size_of_isBoundary hi
    rw [cut, StyledBuffer.slice?_of_isBoundary hi s.isBoundary_size hle]
    rfl
  · rfl

/-! ### Landmarks -/

/-- The offset of a position. -/
def offsetOf (pos : TextPos) : Careful Nat := do
  let offset ← check (offsetAt index pos)
  lift (.ofExcept (offset.mapError .noOffset))

/-- The first place of a text from an offset on, which is searched for in what has been cut off
    there. -/
def find? (word : String) (i : Nat) : Except Fault (Option Nat) := do
  let rest ← tail? s i
  return (rest.bind fun rest => rest.find? word 0).map (i + ·)

/-- The first offset from `i` on at which a character stands that marks a landmark. -/
def seek (c : Char) (landmark : Landmark) (i : Nat) : Careful Nat := do
  match ← check (find? s (String.singleton c) i) with
  | some j => lift (pure j)
  | none => lift (.fail (.misaligned landmark i))

variable {s index}

theorem offsetOf_eq_lift {pos : TextPos} (h : pos.Fits index) :
    offsetOf index pos = lift (XmlHighlight.offsetOf index pos) := by
  rw [offsetOf, offsetAt_eq_ok h]
  rfl

/-- A search by checked slices has no fault and finds what the search finds. -/
theorem find?_eq_ok (word : String) (i : Nat) : find? s word i = .ok (s.find? word i) := by
  unfold find?
  rw [tail?_eq_ok]
  show Except.ok _ = _
  by_cases hi : s.isBoundary i = true
  · rw [if_pos hi, Option.bind_some, Source.find?_tail hi]
  · rw [if_neg hi, Source.find?, if_neg hi]
    rfl

/-- **Landmarks.** A landmark is found, or missed, without a fault, wherever the search begins. -/
theorem seek_eq_lift (c : Char) (landmark : Landmark) (i : Nat) :
    seek s c landmark i = lift (XmlHighlight.seek s c landmark i) := by
  unfold seek
  rw [find?_eq_ok, XmlHighlight.seek]
  cases s.find? (String.singleton c) i with
  | none => rfl
  | some j => rfl

/-! ### Attribute values -/

variable (s index)

/-- A text begins with a value, and a quote follows it. -/
def isQuoted (rest : Source) (value : String) (quote : Char) : Except Fault Bool :=
  if rest.matchesAt value.toByteArray.toList 0 then do
    let behind ← tail? rest value.utf8ByteSize
    return behind.any fun behind => behind.matchesAt (String.singleton quote).toByteArray.toList 0
  else .ok false

/-- The length of a value that a text begins with. -/
def lengthIn (rest : Source) (value : String) (quote : Char) : Except Fault Nat := do
  let escaped := escapedValue value quote
  if ← isQuoted rest value quote then return value.utf8ByteSize
  else if ← isQuoted rest escaped quote then return escaped.utf8ByteSize
  else return ((rest.find? (String.singleton quote) 0).getD (min value.utf8ByteSize rest.size))

/-- The number of bytes that the value of an attribute takes up. Where the offset is not between
    characters, the text behind it is taken to be empty. -/
def valueLength (i : Nat) (value : String) (quote : Char) : Except Fault Nat := do
  let rest ← tail? s i
  lengthIn (rest.getD (.ofText "")) value quote

/-- The slice behind a value that stands there has no fault. -/
theorem isQuoted_eq_ok (rest : Source) (value : String) (quote : Char) :
    isQuoted rest value quote = .ok (isQuotedAt rest value quote 0) := by
  unfold isQuoted isQuotedAt
  split
  · next hvalue =>
    have hend := Source.isBoundary_of_matchesAt hvalue
    rw [tail?_eq_ok, if_pos hend]
    show Except.ok (Source.matchesAt _ _ _) = _
    rw [Source.matchesAt_tail hend, hvalue, Bool.true_and, Nat.zero_add, Nat.add_zero]
  · next hvalue =>
    rw [Bool.eq_false_iff.mpr hvalue, Bool.false_and]

/-- A quote is one byte or more, and so it does not stand in an empty text. -/
theorem matchesAt_quote_empty (quote : Char) (k : Nat) :
    (Source.ofText "").matchesAt (String.singleton quote).toByteArray.toList k = false := by
  refine Bool.eq_false_iff.mpr fun h => ?_
  have hle : k + quote.utf8Size ≤ 0 := Source.utf8Size_le_of_matchesAt h
  have hpos := Char.utf8Size_pos quote
  omega

theorem find?_quote_empty (quote : Char) : (Source.ofText "").find? (String.singleton quote) 0
    = none := by
  rw [Source.find?, if_pos (Source.isBoundary_zero _), Source.findBytes?, if_neg, if_neg]
  · exact Nat.lt_irrefl 0
  · rw [matchesAt_quote_empty]
    exact Bool.false_ne_true

/-- A value is quoted in the tail as it is in the text. -/
theorem isQuotedAt_tail {i : Nat} (hi : s.isBoundary i = true) (value : String) (quote : Char) :
    isQuotedAt (s.tail i) value quote 0 = isQuotedAt s value quote i := by
  rw [isQuotedAt, isQuotedAt, Source.matchesAt_tail hi, Source.matchesAt_tail hi, Nat.zero_add]
  rfl

/-- The value begins where the text has been cut off, and what is found in the rest is found in the
    whole text. -/
theorem lengthIn_tail {i : Nat} (hi : s.isBoundary i = true) (value : String) (quote : Char) :
    lengthIn (s.tail i) value quote = .ok (XmlHighlight.valueLength s i value quote) := by
  unfold lengthIn
  simp only [isQuoted_eq_ok, isQuotedAt_tail s hi]
  rw [XmlHighlight.valueLength, if_pos hi, ← Source.find?_tail hi]
  show (if isQuotedAt s value quote i = true then _
    else if isQuotedAt s (escapedValue value quote) quote i = true then _ else _) = _
  -- The three ways in which the width of a value is found are the same in the rest of the text.
  by_cases hvalue : isQuotedAt s value quote i = true
  · rw [if_pos hvalue, if_pos hvalue]
    rfl
  · by_cases hescaped : isQuotedAt s (escapedValue value quote) quote i = true
    · simp only [if_neg hvalue, if_pos hescaped]
      rfl
    · simp only [if_neg hvalue, if_neg hescaped, Source.size_tail hi]
      cases (s.tail i).find? (String.singleton quote) 0 with
      | none => rfl
      | some j => exact congrArg Except.ok (Nat.add_sub_cancel_left i j).symm

/-- Nothing of a value is in an empty text, since no quote is. -/
theorem lengthIn_empty (value : String) (quote : Char) :
    lengthIn (.ofText "") value quote = .ok 0 := by
  have hnone (text : String) : isQuotedAt (.ofText "") text quote 0 = false := by
    rw [isQuotedAt, Bool.and_eq_false_iff]
    exact .inr (matchesAt_quote_empty quote _)
  unfold lengthIn
  simp only [isQuoted_eq_ok, hnone, find?_quote_empty]
  exact congrArg Except.ok (Nat.min_zero _)

/-- **Values.** The length of a value is found without a fault, and it is that of the value in the
    whole text. -/
theorem valueLength_eq_ok (i : Nat) (value : String) (quote : Char) :
    valueLength s i value quote = .ok (XmlHighlight.valueLength s i value quote) := by
  rw [valueLength, tail?_eq_ok]
  by_cases hi : s.isBoundary i = true
  · rw [if_pos hi]
    exact lengthIn_tail s hi value quote
  · rw [if_neg hi, XmlHighlight.valueLength, if_neg hi]
    exact lengthIn_empty value quote

/-! ### Tokens -/

/-- The spans of an attribute, and the offset after its closing quote. -/
def attributeSpans (attr : TagAttribute) : Careful Nat := do
  let i ← offsetOf index attr.pos
  let nameLength := attr.name.utf8ByteSize
  lift (paint i nameLength .attributeName)
  let eq ← seek s '=' .equals (i + nameLength)
  lift (paint eq 1 .delimiter)
  let opening ← seek s attr.quote .openingQuote (eq + 1)
  let start := opening + 1
  let length ← check (valueLength s start attr.value attr.quote)
  lift (paint start length .attributeValue)
  lift (pure (start + length + attr.quote.utf8Size))

/-- The spans of some attributes, and the offset after the last of them. -/
def attributesSpans (i : Nat) : List TagAttribute → Careful Nat
  | [] => lift (pure i)
  | attr :: rest => do
    let i ← attributeSpans s index attr
    attributesSpans i rest

/-- The spans of a token. What comes before a name begins one byte, or two, before it. -/
def tokenSpans : Token → Careful Unit
  | .startTag name pos attributes empty => do
    let i ← offsetOf index pos
    lift (if i = 0 then .fail (.misaligned .tagStart i) else pure ())
    let opening ← check (difference i 1)
    lift (paint opening 1 .delimiter)
    let nameLength := name.utf8ByteSize
    lift (paint i nameLength .elementName)
    let j ← attributesSpans s index (i + nameLength) attributes
    let close ← seek s '>' .tagEnd j
    if empty && 0 < close then do
      let slash ← check (difference close 1)
      lift (paint slash 2 .delimiter)
    else lift (paint close 1 .delimiter)
  | .endTag name pos => do
    let i ← offsetOf index pos
    lift (if i < 2 then .fail (.misaligned .endTagStart i) else pure ())
    let opening ← check (difference i 2)
    lift (paint opening 2 .delimiter)
    let nameLength := name.utf8ByteSize
    lift (paint i nameLength .elementName)
    let close ← seek s '>' .tagEnd (i + nameLength)
    lift (paint close 1 .delimiter)
  | .comment body pos => do
    let i ← offsetOf index pos
    lift (paint i body.utf8ByteSize .comment)
  | .lone _ | .text _ _ | .instruction _ => lift (pure ())

variable {s index}

theorem difference_eq_ok {n m : Nat} (h : m ≤ n) : difference n m = .ok (n - m) := if_pos h

/-- Painting an attribute takes no risk, if the offset of its position can be found. -/
theorem attributeSpans_eq_lift {attr : TagAttribute} (h : attr.pos.Fits index) :
    attributeSpans s index attr = lift (XmlHighlight.attributeSpans s index attr) := by
  unfold attributeSpans XmlHighlight.attributeSpans
  rw [offsetOf_eq_lift h]
  refine lift_bind fun i _ => ?_
  refine lift_bind fun _ _ => ?_
  rw [seek_eq_lift]
  refine lift_bind fun eq _ => ?_
  refine lift_bind fun _ _ => ?_
  rw [seek_eq_lift]
  refine lift_bind fun opening _ => ?_
  simp only [valueLength_eq_ok, check_bind]
  exact lift_bind fun _ _ => rfl

/-- Painting all attributes of a tag takes no risk either. -/
theorem attributesSpans_eq_lift {attrs : List TagAttribute}
    (h : ∀ attr ∈ attrs, attr.pos.Fits index) (i : Nat) :
    attributesSpans s index i attrs = lift (XmlHighlight.attributesSpans s index i attrs) := by
  induction attrs generalizing i with
  | nil => rfl
  | cons attr rest ih =>
    obtain ⟨hattr, hrest⟩ := List.forall_mem_cons.mp h
    rw [attributesSpans, XmlHighlight.attributesSpans, attributeSpans_eq_lift hattr]
    exact lift_bind fun j _ => ih hrest j

end Careful

/-- The positions that are looked up for a token. -/
def Token.lookups : Token → List TextPos
  | .startTag _ pos attrs _ => pos :: attrs.map TagAttribute.pos
  | .endTag _ pos | .comment _ pos => [pos]
  | .lone _ | .text _ _ | .instruction _ => []

namespace Careful

/-- **Token by token.** A token is painted without a fault, whatever it says. -/
theorem tokenSpans_eq_lift {token : Token} (h : ∀ pos ∈ token.lookups, pos.Fits index) :
    tokenSpans s index token = lift (XmlHighlight.tokenSpans s index token) := by
  cases token with
  | lone attr => rfl
  | text pos length => rfl
  | instruction pos => rfl
  | comment body pos =>
    rw [tokenSpans, XmlHighlight.tokenSpans, offsetOf_eq_lift (h pos List.mem_cons_self)]
    exact lift_bind fun i _ => rfl
  | endTag name pos =>
    rw [tokenSpans, XmlHighlight.tokenSpans, offsetOf_eq_lift (h pos List.mem_cons_self)]
    refine lift_bind fun i _ => ?_
    by_cases hi : i < 2
    · rw [if_pos hi, if_pos hi]
      rfl
    · -- The guard that has been passed is the condition of the difference.
      simp only [if_neg hi, difference_eq_ok (Nat.le_of_not_lt hi), check_bind, lift_pure_bind]
      refine lift_bind fun _ _ => ?_
      refine lift_bind fun _ _ => ?_
      rw [seek_eq_lift]
      exact lift_bind fun close _ => rfl
  | startTag name pos attrs empty =>
    rw [tokenSpans, XmlHighlight.tokenSpans, offsetOf_eq_lift (h pos List.mem_cons_self)]
    refine lift_bind fun i _ => ?_
    by_cases hi : i = 0
    · rw [if_pos hi, if_pos hi]
      rfl
    · simp only [if_neg hi, difference_eq_ok (show 1 ≤ i by omega), check_bind, lift_pure_bind]
      refine lift_bind fun _ _ => ?_
      refine lift_bind fun _ _ => ?_
      rw [attributesSpans_eq_lift fun attr hattr =>
        h _ (List.mem_cons_of_mem _ (List.mem_map_of_mem hattr))]
      refine lift_bind fun j _ => ?_
      rw [seek_eq_lift]
      refine lift_bind fun close _ => ?_
      by_cases hempty : (empty && decide (0 < close)) = true
      · rw [if_pos hempty, if_pos hempty]
        have hclose : 0 < close := of_decide_eq_true (Bool.and_eq_true_iff.mp hempty).2
        rw [difference_eq_ok hclose, check_bind]
      · rw [if_neg hempty, if_neg hempty]

/-! ### Items -/

/-- Lines from one hand-out to the next. -/
def reportingInterval (settings : Settings) (lines : Nat) : Except Fault Nat := do
  let group ← quotient lines (max settings.flushesPerDocument 1)
  return max (max group settings.minReportingInterval) 1

/-- The number of flushes is at least one, so the division has no fault. -/
theorem reportingInterval_eq_ok (settings : Settings) (lines : Nat) :
    reportingInterval settings lines = .ok (settings.reportingInterval lines) := by
  have hpos : max settings.flushesPerDocument 1 ≠ 0 := by omega
  rw [reportingInterval, quotient, if_neg hpos]
  rfl

/-- A percentage that only a finished scan exceeds. -/
def unfinished (percent : Nat) : Progress :=
  ⟨min percent 99, Nat.le_succ_of_le (Nat.min_le_right percent 99)⟩

/-- The progress of a scan that has reached `line` of `total` lines. -/
def atLine (line total : Nat) : Except Fault Progress :=
  if total = 0 then .ok .none
  else do
    let percent ← quotient (min (line * 100) Progress.wordMax) total
    return unfinished percent

/-- The percentage has no fault, with no lines at all as well. -/
theorem atLine_eq_ok (line total : Nat) : atLine line total = .ok (.atLine line total) := by
  unfold atLine Progress.atLine
  by_cases htotal : total = 0
  · rw [if_pos htotal, if_pos htotal]
  · rw [if_neg htotal, if_neg htotal, quotient, if_neg htotal]
    rfl

/-- Takes a token, and polls if it is time to. -/
def pull (settings : Settings) (sc : Scanner) : Except Fault Scanner := do
  let actions := sc.actions.push .pull
  let place ← remainder sc.pulled (max settings.pollInterval 1)
  return { sc with
    actions := if place = 0 then actions.push .poll else actions
    pulled := sc.pulled + 1 }

/-- The interval between two polls is at least one, so pulling an item has no fault. -/
theorem pull_eq_ok (settings : Settings) (sc : Scanner) :
    pull settings sc = .ok (sc.pull settings) := by
  have hpos : max settings.pollInterval 1 ≠ 0 := by omega
  rw [pull, remainder, if_neg hpos]
  rfl

/-- Hands out what has been found if a new group of lines is reached. -/
def reach (index : LineIndex) (interval : Nat) (sc : Scanner) (line : Nat) :
    Except Fault Scanner := do
  let bucket ← quotient line interval
  if sc.bucket.all (· < bucket) then do
    let progress ← atLine line index.lineCount
    let progress := sc.progress.max progress
    return { sc with
      actions := sc.actions.push (.flush ⟨progress, sc.batch.toList⟩)
      batch := #[]
      bucket := some bucket
      progress }
  else return sc

/-- Reaching a line has no fault. -/
theorem reach_eq_ok (settings : Settings) (sc : Scanner) (line : Nat) :
    reach index (settings.reportingInterval index.lineCount) sc line
      = .ok (sc.reach index settings line) := by
  have hpos := Nat.ne_of_gt (settings.reportingInterval_pos index.lineCount)
  rw [reach, quotient, if_neg hpos, Scanner.reach]
  show (if _ then _ else _) = _
  split
  · rw [atLine_eq_ok]
    rfl
  · rfl

/-- Deals with the next token. -/
def take (s : Source) (index : LineIndex) (settings : Settings) (interval : Nat) (sc : Scanner)
    (item : TokenItem) : Except Fault (Scanner × Option ScanError) := do
  let sc ← pull settings sc
  match item with
  | .error message => return (sc, some (.malformed message))
  | .ok token => do
    let sc ← reach index interval sc token.pos.line
    let painting ← (tokenSpans s index token).outcome
    let sc := { sc with batch := sc.batch ++ painting.spans.toArray }
    match painting.result with
    | .error e => return (sc, some e)
    | .ok () => return (sc, none)

/-- Deals with the tokens that are left. -/
def takeAll (s : Source) (index : LineIndex) (settings : Settings) (interval : Nat) :
    Scanner → List TokenItem → Except Fault Plan
  | sc, [] => .ok sc.finish
  | sc, item :: rest => do
    match ← take s index settings interval sc item with
    | (sc, none) => takeAll s index settings interval sc rest
    | (sc, some e) => return ⟨sc.actions, .error e⟩

/-- The plan of a scan over some tokens, which may come without positions. The interval is found out
    once. -/
def planOf (s : Source) (index : LineIndex) (settings : Settings) (hasPositions : Bool)
    (items : List TokenItem) : Except Fault Plan :=
  if hasPositions then do
    let interval ← reportingInterval settings index.lineCount
    takeAll s index settings interval .start items
  else return ⟨#[], .ok .noPositions⟩

end Careful

/-- The sums for the positions that are looked up for an item are words. -/
def TokenItem.Fits (index : LineIndex) (item : TokenItem) : Prop :=
  ∀ token, item = .ok token → ∀ pos ∈ token.lookups, pos.Fits index

namespace Careful

variable (settings : Settings)

/-- **Step.** An item is dealt with without a fault. -/
theorem take_eq_ok {item : TokenItem} (h : item.Fits index) (sc : Scanner) :
    take s index settings (settings.reportingInterval index.lineCount) sc item
      = .ok (sc.take s index settings item) := by
  rw [take, pull_eq_ok]
  cases item with
  | error message => rfl
  | ok token =>
    show (reach index _ (sc.pull settings) token.pos.line >>= _) = _
    rw [reach_eq_ok]
    show ((tokenSpans s index token).outcome >>= _) = _
    rw [tokenSpans_eq_lift (h token rfl), outcome_lift, Scanner.take]
    dsimp only
    cases hresult : (XmlHighlight.tokenSpans s index token).result with
    | error e =>
      simp only [hresult, bind, Except.bind]
      rfl
    | ok u =>
      simp only [hresult, bind, Except.bind]
      rfl

/-- **Run.** By induction on the items that are left. -/
theorem takeAll_eq_ok {items : List TokenItem} (h : ∀ item ∈ items, item.Fits index)
    (sc : Scanner) :
    takeAll s index settings (settings.reportingInterval index.lineCount) sc items
      = .ok (sc.takeAll s index settings items) := by
  induction items generalizing sc with
  | nil => rfl
  | cons item rest ih =>
    obtain ⟨hitem, hrest⟩ := List.forall_mem_cons.mp h
    rw [takeAll, take_eq_ok settings hitem, Scanner.takeAll]
    cases sc.take s index settings item with
    | mk sc' failure =>
      cases failure with
      | none => exact ih hrest sc'
      | some e => rfl

/-- **Scans.** A careful scan comes upon no fault, and does what a scan does. -/
theorem planOf_eq_ok (hasPositions : Bool) {items : List TokenItem}
    (h : ∀ item ∈ items, item.Fits index) :
    planOf s index settings hasPositions items
      = .ok (XmlHighlight.planOf s index settings hasPositions items) := by
  unfold planOf XmlHighlight.planOf
  by_cases hpositions : hasPositions = true
  · rw [if_pos hpositions, if_pos hpositions, reportingInterval_eq_ok]
    exact takeAll_eq_ok settings h .start
  · rw [if_neg hpositions, if_neg hpositions]
    rfl

end Careful

end XmlHighlight
