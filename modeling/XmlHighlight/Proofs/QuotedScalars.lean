import XmlHighlight.Proofs.PlainScalars

/-!
# Quoted scalars — what is written between quotes is read back

Between single quotes, only a quote is written differently, and lines after the first are indented;
the two separators are the only line breaks that get there, and no reader folds them. Between double
quotes, a character is either written as it is or escaped, and a line never ends.

* `Yaml.Gap.IsKept` — white space that stands for itself;
* `Yaml.readSingle_writeSingle` — single quotes keep the text;
* `Yaml.readDouble_upperHex` — a number in base sixteen is read back;
* `Yaml.readDouble_writeEscaped`, `Yaml.readDouble_flatMap` — double quotes keep the text.
-/

namespace XmlHighlight.Yaml

/-! ### Between single quotes -/

namespace Gap

/-- White space that stands for itself: its line breaks, if there are any, are not folded. -/
def IsKept : Gap → Prop
  | inline _ => True
  | broken first _ => ∃ c, first = some c ∧ c ≠ '\n'

@[simp] theorem text_inline (spaces : String) : (inline spaces).text = spaces := rfl

@[simp] theorem text_none : none.text = "" := rfl

/-- A line break that is not folded stands for itself. -/
theorem text_broken {c : Char} (hc : c ≠ '\n') (more : List Char) :
    (broken (some c) more).text = String.ofList (c :: more) := by
  simp [text, hc]

theorem isKept_none : none.IsKept := trivial

/-- A separator after white space that stands for itself and does not end in a space. -/
theorem addBreak_of_isKept {g : Gap} {c : Char} (hg : g.IsKept)
    (hend : g.isBroken = false → g = none)
    (hc : breakChar c = c) (hne : c ≠ '\n') :
    (g.addBreak c).IsKept ∧ (g.addBreak c).isBroken = true ∧
      (g.addBreak c).text = g.text ++ String.singleton c := by
  cases g with
  | inline spaces =>
    have hempty : spaces = "" := by simpa [isBroken, none] using hend
    refine ⟨⟨c, by simp [hc], hne⟩, rfl, ?_⟩
    rw [addBreak, hc, text_broken hne, hempty]
    simp
  | broken first more =>
    obtain ⟨d, rfl, hd⟩ := hg
    refine ⟨⟨d, rfl, hd⟩, rfl, ?_⟩
    rw [addBreak, hc, text_broken hd, text_broken hd]
    simp [← String.toList_inj]

end Gap

/-- A space is held back. -/
theorem readSingle_space (rest : List Char) (m : Mark) (text : String) (gap : Gap) :
    readSingle (' ' :: rest) m text gap = readSingle rest m.next text (gap.addWhite ' ') := by
  simp [readSingle, isWhite]

/-- A line break is held back. -/
theorem readSingle_break {c : Char} (hc : isPrintable c = true) (hbreak : isBreak c = true)
    (rest : List Char) (m : Mark) (text : String) (gap : Gap) :
    readSingle (c :: rest) m text gap = readSingle rest (m.newLine 1) text (gap.addBreak c) := by
  have hr := ne_return_of_isPrintable hc
  have hq : c ≠ '\'' := by rintro rfl; revert hbreak; decide
  have hw : isWhite c = false := by
    apply isWhite_of_isPrintable hc
    rintro rfl
    revert hbreak
    decide
  rw [readSingle] <;> simp [hq, hr, hw, hbreak]

/-- The spaces in front of a line do not count. -/
theorem readSingle_margin (rest : List Char) (m : Mark) (text : String) {gap : Gap}
    (hgap : gap.isBroken = true) :
    readSingle (margin ++ rest) m text gap = readSingle rest m.next.next text gap := by
  cases gap with
  | inline spaces => simp [Gap.isBroken] at hgap
  | broken first more => simp [margin, readSingle_space, Gap.addWhite]

/-- A character of a line is added to the scalar, with the white space before it. -/
theorem readSingle_char {c : Char} (hwhite : isWhite c = false) (hbreak : isBreak c = false)
    (rest : List Char) {m : Mark} (hm : 0 < m.column) (text : String) (gap : Gap) :
    ∃ m' : Mark, 0 < m'.column ∧
      readSingle ((if c == '\'' then [c, c] else [c]) ++ rest) m text gap
        = readSingle rest m' ((text ++ gap.text).push c) .none := by
  by_cases hq : c = '\''
  · subst hq
    exact ⟨m.next.next, Nat.succ_pos _, by simp [readSingle]⟩
  · have hr : c ≠ '\r' := by rintro rfl; revert hbreak; decide
    refine ⟨m.next, Nat.succ_pos _, ?_⟩
    have hcol : m.column ≠ 0 := Nat.ne_of_gt hm
    simp only [beq_iff_eq, hq, if_false, List.singleton_append]
    rw [readSingle] <;> simp [hq, hr, hwhite, hbreak, hcol]

/-- Single quotes keep a text in which spaces and line breaks are not neighbours. -/
theorem readSingle_writeSingle (rest : List Char) (cs : List Char) :
    ∀ (m : Mark) (text : String) (gap : Gap), (gap.isBroken = false → 0 < m.column) → gap.IsKept →
      (∀ c ∈ cs, isPrintable c = true ∧ c ≠ '\n') →
      hasPair (· == ' ') isBreak cs = false → hasPair isBreak (· == ' ') cs = false →
      (gap.isBroken = true → cs.head? ≠ some ' ') →
      (gap.isBroken = false → gap ≠ .none → ∀ c, cs.head? = some c → isBreak c = false) →
      ∃ m', readSingle (writeSingle cs gap.isBroken ++ '\'' :: '\n' :: rest) m text gap
        = some (text ++ gap.text ++ String.ofList cs, ⟨'\n' :: rest, m'⟩) := by
  induction cs with
  | nil =>
    intro m text gap _ _ _ _ _ _ _
    -- A text that ends with a line break has an empty last line, with a margin.
    by_cases hgap : gap.isBroken = true
    · refine ⟨m.next.next.next, ?_⟩
      simp [writeSingle, hgap, readSingle_margin _ _ _ hgap, readSingle]
    · exact ⟨m.next, by simp [writeSingle, hgap, readSingle]⟩
  | cons c cs ih =>
    intro m text gap hm hkept hcs hsb hbs hstart hend
    obtain ⟨hc, hne⟩ := hcs c List.mem_cons_self
    have hcs' : ∀ d ∈ cs, isPrintable d = true ∧ d ≠ '\n' :=
      fun d hd => hcs d (List.mem_cons_of_mem _ hd)
    obtain ⟨hsb, hsb'⟩ := hasPair_cons_eq_false.1 hsb
    obtain ⟨hbs, hbs'⟩ := hasPair_cons_eq_false.1 hbs
    by_cases hbreak : isBreak c = true
    · -- No space was held back, since it would stand before a line break.
      have hnone : gap.isBroken = false → gap = .none := by
        intro hg
        refine Classical.byContradiction fun hn => ?_
        simp [hend hg hn c rfl] at hbreak
      obtain ⟨hkept', hbroken, htext⟩ :=
        Gap.addBreak_of_isKept hkept hnone (breakChar_of_isPrintable hc hbreak) hne
      obtain ⟨m', hread⟩ := ih (m.newLine 1) text (gap.addBreak c) (by simp [hbroken]) hkept' hcs'
        hsb' hbs' (fun _ h => by simpa using hbs hbreak ' ' h) (by simp [hbroken])
      refine ⟨m', ?_⟩
      simp only [writeSingle, hbreak, if_true, List.cons_append, readSingle_break hc hbreak]
      rw [← hbroken, hread, htext]
      simp [← String.toList_inj]
    · replace hbreak : isBreak c = false := by simpa using hbreak
      by_cases hspace : c = ' '
      · -- A line does not begin with a space, so this one is inside a line.
        subst hspace
        cases gap with
        | broken first more => simp [Gap.isBroken] at hstart
        | inline spaces =>
          obtain ⟨m', hread⟩ := ih m.next text (.inline (spaces.push ' ')) (fun _ => Nat.succ_pos _)
            trivial hcs' hsb' hbs' (by simp [Gap.isBroken]) (fun _ _ => hsb (by decide))
          refine ⟨m', ?_⟩
          simp only [Gap.isBroken] at hread ⊢
          simp [writeSingle, hbreak, readSingle_space, Gap.addWhite, hread, ← String.toList_inj]
      · have hwhite := isWhite_of_isPrintable hc hspace
        -- Where the line begins, the cursor is behind the margin.
        obtain ⟨m₀, hm₀, hline⟩ : ∃ m₀ : Mark, 0 < m₀.column ∧ ∀ tail,
            readSingle ((if gap.isBroken then margin else []) ++ tail) m text gap
              = readSingle tail m₀ text gap := by
          by_cases hgap : gap.isBroken = true
          · exact ⟨m.next.next, Nat.succ_pos _, fun tail => by
              rw [if_pos hgap, readSingle_margin _ _ _ hgap]⟩
          · exact ⟨m, hm (by simpa using hgap), fun tail => by simp [hgap]⟩
        obtain ⟨m₁, hm₁, hchar⟩ := readSingle_char hwhite hbreak
          (writeSingle cs false ++ '\'' :: '\n' :: rest) hm₀ text gap
        obtain ⟨m', hread⟩ := ih m₁ ((text ++ gap.text).push c) .none (fun _ => hm₁) Gap.isKept_none
          hcs' hsb' hbs' (by simp [Gap.isBroken, Gap.none]) (fun _ h => absurd rfl h)
        refine ⟨m', ?_⟩
        have hwrite : writeSingle (c :: cs) gap.isBroken ++ '\'' :: '\n' :: rest
            = (if gap.isBroken then margin else []) ++ ((if c == '\'' then [c, c] else [c])
              ++ (writeSingle cs false ++ '\'' :: '\n' :: rest)) := by
          simp [writeSingle, hbreak]
        rw [hwrite, hline, hchar]
        simp only [Gap.isBroken, Gap.none, Gap.text_inline] at hread
        rw [Gap.none, hread]
        simp [← String.toList_inj]

/-- Between single quotes stand characters of the text, and spaces. -/
theorem mem_writeSingle {c : Char} (cs : List Char) :
    ∀ atLineStart, c ∈ writeSingle cs atLineStart → c ∈ cs ∨ c = ' ' := by
  induction cs with
  | nil =>
    intro atLineStart h
    cases atLineStart <;> simp_all [writeSingle, margin]
  | cons d cs ih =>
    intro atLineStart h
    have hrest : ∀ atLineStart, c ∈ writeSingle cs atLineStart → c ∈ d :: cs ∨ c = ' ' :=
      fun _ h => (ih _ h).imp_left (List.mem_cons_of_mem d)
    unfold writeSingle at h
    -- A break is written as it is; before any other character the margin may come first.
    by_cases hd : isBreak d = true
    · rw [if_pos hd, List.mem_cons] at h
      obtain rfl | h := h
      · exact .inl List.mem_cons_self
      · exact hrest _ h
    · rw [if_neg hd, List.mem_append, List.mem_append] at h
      obtain (h | h) | h := h
      · cases atLineStart <;> simp_all [margin]
      · by_cases hq : d = '\'' <;> simp_all
      · exact hrest _ h

/-! ### Between double quotes -/

/-- A digit in base sixteen is read back. -/
theorem hexDigit?_upperHexDigit {n : Nat} (h : n < 16) : hexDigit? (upperHexDigit n) = some n := by
  have : ∀ n : Fin 16, hexDigit? (upperHexDigit n) = some n.val := by decide
  exact this ⟨n, h⟩

/-- A digit is not the beginning of a line break. -/
theorem upperHexDigit_ne_return {n : Nat} (h : n < 16) : upperHexDigit n ≠ '\r' := by
  have : ∀ n : Fin 16, upperHexDigit n ≠ '\r' := by decide
  exact this ⟨n, h⟩

/-- Hexadecimal digits may stand in a file. -/
theorem isAllowed_upperHexDigit {n : Nat} (h : n < 16) : isAllowed (upperHexDigit n) = true := by
  have : ∀ n : Fin 16, isAllowed (upperHexDigit n) = true := by decide
  exact this ⟨n, h⟩

/-- A digit that is not the last of a number. -/
theorem readDouble_digit {d : Nat} (hd : d < 16) (rest : List Char) (m : Mark) (text : String)
    (gap : Gap) (k value : Nat) :
    readDouble (upperHexDigit d :: rest) m text gap (.number (k + 2) value)
      = readDouble rest m.next text gap (.number (k + 1) (value * 16 + d)) := by
  rw [readDouble] <;> simp [hexDigit?_upperHexDigit hd, upperHexDigit_ne_return hd]

/-- The last digit of a number. -/
theorem readDouble_lastDigit {d : Nat} (hd : d < 16) (rest : List Char) (m : Mark) (text : String)
    (gap : Gap) {value : Nat} {c : Char} (hc : value * 16 + d = c.toNat) :
    readDouble (upperHexDigit d :: rest) m text gap (.number 1 value)
      = readDouble rest m.next (text.push c) .none .outside := by
  have hvalid : c.toNat.isValidChar := c.valid
  rw [readDouble]
  · simp only [hexDigit?_upperHexDigit hd, hc]
    rw [if_neg (by decide), if_pos hvalid, Char.ofNat_toNat]
  · simp [upperHexDigit_ne_return hd]

/-- The digits of a number with `width` digits are read back, up to the digits after them. -/
theorem readDouble_upperHex (width : Nat) :
    ∀ (n k : Nat) (rest : List Char) (m : Mark) (text : String) (gap : Gap), n < Nat.pow 16 width →
      ∃ m' : Mark, (0 < m.column → 0 < m'.column) ∧
        readDouble (upperHex width n ++ rest) m text gap (.number (width + k + 1) 0)
          = readDouble rest m' text gap (.number (k + 1) n) := by
  induction width with
  | zero =>
    intro n k rest m text gap hn
    have : n = 0 := Nat.lt_one_iff.1 hn
    exact ⟨m, id, by simp [upperHex, this]⟩
  | succ width ih =>
    intro n k rest m text gap hn
    have hn' : n / 16 < Nat.pow 16 width := Nat.div_lt_of_lt_mul (by
      rw [Nat.mul_comm]; exact hn)
    -- The digits are written from the highest down, so the last one is read after the others.
    obtain ⟨m', _, hread⟩ := ih (n / 16) (k + 1) (upperHexDigit (n % 16) :: rest) m text gap hn'
    refine ⟨m'.next, fun _ => Nat.succ_pos _, ?_⟩
    have hvalue : n / 16 * 16 + n % 16 = n := by omega
    have hk : width + 1 + k + 1 = width + (k + 1) + 1 := by omega
    rw [upperHex, List.append_assoc, List.singleton_append, hk, hread,
      readDouble_digit (Nat.mod_lt _ (by decide)), hvalue]

/-- A character after a backslash, as its number. -/
theorem readDouble_number (width : Nat) {c : Char} (hc : c.toNat < Nat.pow 16 (width + 1))
    (rest : List Char) (m : Mark) (text : String) :
    ∃ m' : Mark, 0 < m'.column ∧
      readDouble (upperHex (width + 1) c.toNat ++ rest) m text .none (.number (width + 1) 0)
        = readDouble rest m' (text.push c) .none .outside := by
  have hn : c.toNat / 16 < Nat.pow 16 width := Nat.div_lt_of_lt_mul (by
    rw [Nat.mul_comm]; exact hc)
  obtain ⟨m', _, hread⟩ := readDouble_upperHex width (c.toNat / 16) 0
    (upperHexDigit (c.toNat % 16) :: rest) m text .none hn
  refine ⟨m'.next, Nat.succ_pos _, ?_⟩
  rw [upperHex, List.append_assoc, List.singleton_append]
  rw [Nat.add_zero] at hread
  rw [hread]
  exact readDouble_lastDigit (Nat.mod_lt _ (by decide)) rest m' text .none (by omega)

/-- A character that needs no backslash is added to the scalar, or held back if it is a space. -/
theorem readDouble_shown {c : Char} (hc : isPrintable c = true) (hbreak : isBreak c = false)
    (hquote : c ≠ '"') (hslash : c ≠ '\\') (rest : List Char) {m : Mark} (hm : 0 < m.column)
    (text spaces : String) :
    ∃ text' spaces' : String, text' ++ spaces' = (text ++ spaces).push c ∧
      readDouble (c :: rest) m text (.inline spaces) .outside
        = readDouble rest m.next text' (.inline spaces') .outside := by
  have hr := ne_return_of_isPrintable hc
  by_cases hspace : c = ' '
  · subst hspace
    refine ⟨text, spaces.push ' ', by simp [← String.toList_inj], ?_⟩
    rw [readDouble] <;> simp [isWhite, Gap.addWhite]
  · have hcol : m.column ≠ 0 := Nat.ne_of_gt hm
    refine ⟨(text ++ spaces).push c, "", by simp, ?_⟩
    rw [readDouble] <;>
      simp [hr, hquote, hslash, hbreak, isWhite_of_isPrintable hc hspace, hcol, Gap.none]

/-- A backslash adds the white space before it to the scalar. -/
theorem readDouble_backslash (rest : List Char) (m : Mark) (text spaces : String) :
    readDouble ('\\' :: rest) m text (.inline spaces) .outside
      = readDouble rest m.next (text ++ spaces) .none .begun := by
  rw [readDouble] <;> simp

/-- A letter after a backslash stands for the character that it is written for. -/
theorem simpleEscape?_of_escapeLetter? {c e : Char} (h : escapeLetter? c = some e) :
    simpleEscape? e = some c ∧ isBreak e = false := by
  unfold escapeLetter? at h
  split at h <;> first | contradiction | (obtain rfl := Option.some.inj h; decide)

/-- An escaped character is read back. -/
theorem readDouble_letter {c e : Char} (he : escapeLetter? c = some e) (rest : List Char) (m : Mark)
    (text : String) :
    readDouble (e :: rest) m text .none .begun
      = readDouble rest m.next (text.push c) .none .outside := by
  obtain ⟨hsimple, hbreak⟩ := simpleEscape?_of_escapeLetter? he
  have hr : e ≠ '\r' := by rintro rfl; revert hbreak; decide
  rw [readDouble] <;> simp [hr, hbreak, hsimple]

/-- A number after a backslash and one of the three letters for numbers is read back. -/
theorem readDouble_numberEscape (letter : Char) (width : Nat)
    (hletter : escapeDigits? letter = some (width + 1)) {c : Char}
    (hc : c.toNat < Nat.pow 16 (width + 1)) (rest : List Char) (m : Mark) (text : String) :
    ∃ m' : Mark, 0 < m'.column ∧
      readDouble (letter :: upperHex (width + 1) c.toNat ++ rest) m text .none .begun
        = readDouble rest m' (text.push c) .none .outside := by
  obtain ⟨m', hm', hread⟩ := readDouble_number width hc rest m.next text
  refine ⟨m', hm', ?_⟩
  have hsimple : simpleEscape? letter = none ∧ isBreak letter = false ∧ letter ≠ '\r' := by
    unfold escapeDigits? at hletter
    split at hletter <;> first | contradiction | decide
  rw [List.cons_append, readDouble] <;> simp [hsimple, hletter, hread]

/-- Whatever is written for a character between double quotes is read as that character. -/
theorem readDouble_writeEscaped (c : Char) (rest : List Char) {m : Mark} (hm : 0 < m.column)
    (text spaces : String) :
    ∃ (m' : Mark) (text' spaces' : String), 0 < m'.column ∧
      text' ++ spaces' = (text ++ spaces).push c ∧
      readDouble (writeEscaped c ++ rest) m text (.inline spaces) .outside
        = readDouble rest m' text' (.inline spaces') .outside := by
  by_cases hshown : (isPrintable c && !isBreak c && c != '"' && c != '\\') = true
  · have hwrite : writeEscaped c = [c] := by rw [writeEscaped, if_pos hshown]
    obtain ⟨⟨⟨hc, hbreak⟩, hquote⟩, hslash⟩ : ((isPrintable c = true ∧ isBreak c = false) ∧
        c ≠ '"') ∧ c ≠ '\\' := by simpa using hshown
    obtain ⟨text', spaces', htext, hread⟩ :=
      readDouble_shown hc hbreak hquote hslash rest hm text spaces
    exact ⟨m.next, text', spaces', Nat.succ_pos _, htext, by rw [hwrite]; exact hread⟩
  · -- The character is escaped: what comes after the backslash is a letter or a number.
    suffices h : ∃ written : List Char, writeEscaped c = '\\' :: written ∧
        ∃ m' : Mark, 0 < m'.column ∧
          readDouble (written ++ rest) m.next (text ++ spaces) .none .begun
            = readDouble rest m' ((text ++ spaces).push c) .none .outside by
      obtain ⟨written, hwrite, m', hm', hread⟩ := h
      refine ⟨m', (text ++ spaces).push c, "", hm', by simp, ?_⟩
      rw [hwrite, List.cons_append, readDouble_backslash, hread, Gap.none]
    rw [writeEscaped, if_neg hshown]
    cases hletter : escapeLetter? c with
    | some e => exact ⟨[e], rfl, m.next.next, Nat.succ_pos _, readDouble_letter hletter rest _ _⟩
    | none =>
      by_cases h2 : c.toNat ≤ 0xFF
      · refine ⟨'x' :: upperHex 2 c.toNat, by simp only [h2, if_true], ?_⟩
        exact readDouble_numberEscape 'x' 1 (by decide) (Nat.lt_succ_of_le h2) rest _ _
      by_cases h4 : c.toNat ≤ 0xFFFF
      · refine ⟨'u' :: upperHex 4 c.toNat, by simp only [h2, h4, if_true, if_false], ?_⟩
        exact readDouble_numberEscape 'u' 3 (by decide) (Nat.lt_succ_of_le h4) rest _ _
      · -- Every character has a number of at most eight digits.
        refine ⟨'U' :: upperHex 8 c.toNat, by simp only [h2, h4, if_false], ?_⟩
        exact readDouble_numberEscape 'U' 7 (by decide) c.val.toNat_lt rest _ _

/-- Whatever is written for a character between double quotes may stand in a text. -/
theorem isAllowed_of_mem_writeEscaped {c d : Char} (h : d ∈ writeEscaped c) :
    isAllowed d = true := by
  have hdigits : ∀ width n, ∀ e ∈ upperHex width n, isAllowed e = true := by
    intro width
    induction width with
    | zero => simp [upperHex]
    | succ width ih =>
      intro n e he
      rw [upperHex, List.mem_append, List.mem_singleton] at he
      obtain he | rfl := he
      · exact ih (n / 16) e he
      · exact isAllowed_upperHexDigit (Nat.mod_lt n (by decide))
  have hletter : ∀ e, escapeLetter? c = some e → isAllowed e = true := by
    intro e he
    unfold escapeLetter? at he
    split at he <;> first | contradiction | (obtain rfl := Option.some.inj he; decide)
  unfold writeEscaped at h
  split at h
  next hc =>
    obtain rfl := List.mem_singleton.1 h
    exact isAllowed_of_isPrintable (by grind)
  next =>
    have hsigns : isAllowed '\\' = true ∧ isAllowed 'x' = true ∧ isAllowed 'u' = true ∧
        isAllowed 'U' = true := by decide
    split at h <;> grind

/-- Double quotes keep every text. -/
theorem readDouble_flatMap (rest : List Char) (cs : List Char) :
    ∀ (m : Mark) (text spaces : String), 0 < m.column →
      ∃ m', readDouble (cs.flatMap writeEscaped ++ '"' :: rest) m text (.inline spaces) .outside
        = some (text ++ spaces ++ String.ofList cs, ⟨rest, m'⟩) := by
  induction cs with
  | nil =>
    intro m text spaces _
    refine ⟨m.next, ?_⟩
    rw [List.flatMap_nil, List.nil_append, readDouble] <;> simp
  | cons c cs ih =>
    intro m text spaces hm
    obtain ⟨m₁, text', spaces', hm₁, htext, hchar⟩ :=
      readDouble_writeEscaped c (cs.flatMap writeEscaped ++ '"' :: rest) hm text spaces
    obtain ⟨m', hread⟩ := ih m₁ text' spaces' hm₁
    refine ⟨m', ?_⟩
    rw [List.flatMap_cons, List.append_assoc, hchar, hread, htext]
    simp [← String.toList_inj]

end XmlHighlight.Yaml
