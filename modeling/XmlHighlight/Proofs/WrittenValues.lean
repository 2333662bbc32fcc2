import XmlHighlight.Proofs.BlockScalars
import XmlHighlight.Proofs.QuotedScalars

/-!
# Values — what is written after the colon of an entry is read back

A value is one token, in whatever style it is written, and after it the lexer is at the beginning of
the next line, but for white space that it passes over next. The writer's choice of a style tells
what the text is like, which is what the readers of that style need.

* `Yaml.Lexer.atLine`, `Yaml.Lexer.atValue` — a lexer before an entry, and before its value;
* `Yaml.ReadsAs` — what is written after a colon is read as one scalar;
* `Yaml.readsAs_plain`, `Yaml.readsAs_single`, `Yaml.readsAs_double`, `Yaml.readsAs_literal` — so it
  is in each of the four styles;
* `Yaml.styleOf_cases`, `Yaml.readsAs_writeScalar` — and in the style that the writer chooses;
* `Yaml.unsigned?_toDigits`, `Yaml.readsAs_decimal` — numbers.
-/

namespace XmlHighlight.Yaml

namespace Lexer

/-! ### Before a token -/

/-- Before an entry of the outermost mapping, which begins with its first one. -/
def atLine (rest : List Char) (m : Mark) (tokens : Array Token) (isFirst : Bool) : Lexer :=
  ⟨⟨rest, m⟩, tokens, if isFirst then 0 else 1, if isFirst then [] else [0], none, [], true⟩

/-- After the colon of an entry. -/
def atValue (rest : List Char) (m : Mark) (tokens : Array Token) : Lexer :=
  ⟨⟨rest, m⟩, tokens, 1, [0], none, [], false⟩

/-- What comes next depends only on where the next token is. -/
theorem run?_congr {l k : Lexer} (h : l.toToken = k.toToken) (n : Nat) : l.run? n = k.run? n := by
  cases n with
  | zero => rfl
  | succ n => rw [run?, run?, h]

/-- One step, from the beginning of a token. -/
theorem run?_succ {l k : Lexer} {c : Char} {rest : List Char} (n : Nat)
    (htoken : l.toToken = k) (hrest : k.cursor.rest = c :: rest) (hstale : k.dropStale? = some k)
    (hunroll : k.unroll (k.column + 1) = k) :
    l.run? (n + 1) = (k.read? c rest).bind (run? n) := by
  rw [run?, htoken, hstale]
  simp only [hrest]
  rw [hunroll]

/-- Passing over white space ends at a character that is none. -/
theorem skipSpace_stop {c : Char} {rest : List Char} {m : Mark} (keyAllowed : Bool)
    (hbreak : isBreak c = false) (hwhite : isWhite c = false) (hhash : c ≠ '#')
    (hmark : c ≠ '\ufeff' ∨ m.column ≠ 0) :
    skipSpace false (c :: rest) m false keyAllowed = (⟨c :: rest, m⟩, keyAllowed) := by
  obtain ⟨hspace, htab⟩ : c ≠ ' ' ∧ c ≠ '\t' := by simpa [isWhite] using hwhite
  have hr : c ≠ '\r' := by rintro rfl; revert hbreak; decide
  have hmark' : ¬ (c = '\ufeff' ∧ m.column = 0) := by grind
  rw [skipSpace]
  · simp [hbreak, hspace, htab, hhash]
    grind
  · simp [hr]

/-- A line that may come after an entry begins with a token, if there is anything. -/
theorem toToken_atLine {rest : List Char} (hrest : StartsLine rest) (m : Mark)
    (tokens : Array Token)
    (isFirst : Bool) : (atLine rest m tokens isFirst).toToken = atLine rest m tokens isFirst := by
  cases rest with
  | nil => simp [toToken, atLine, skipSpace]
  | cons c rest =>
    have hc := startsLine_cons.1 hrest
    simp [toToken, atLine, inFlow,
      skipSpace_stop true (isBreak_of_isAlpha hc) (isWhite_of_isAlpha hc)
      (ne_of_isAlpha hc (by decide)) (.inl (ne_of_isAlpha hc (by decide)))]

/-- Nothing is stale if no key has begun. -/
theorem dropStale?_of_none {l : Lexer} (hkey : l.keyStart = none) (hflow : l.outerKeyStarts = []) :
    l.dropStale? = some l := by
  cases l
  simp_all [dropStale?, refresh?]

/-- No block collection ends at a column that is inside the innermost one. -/
theorem unroll_of_le {l : Lexer} {limit : Nat} (h : l.margin ≤ limit) : l.unroll limit = l := by
  have hnone : ∀ outers,
    closeMargins l.margin limit l.tokens outers = (l.tokens, l.margin, outers) := by
    intro outers
    cases outers with
    | nil => rfl
    | cons outer outers => rw [closeMargins, if_neg (Nat.not_lt.2 h)]
  unfold unroll
  rw [hnone]
  split <;> rfl

/-- A value is read one space after the colon. -/
theorem run?_atValue {c : Char} {rest : List Char} (m : Mark) (tokens : Array Token) (n : Nat)
    (hbreak : isBreak c = false) (hwhite : isWhite c = false) (hhash : c ≠ '#') :
    (atValue (' ' :: c :: rest) m tokens).run? (n + 1)
      = ((atValue (c :: rest) m.next tokens).read? c rest).bind (run? n) := by
  apply run?_succ n _ rfl (dropStale?_of_none rfl rfl)
    (unroll_of_le (Nat.succ_le_succ (Nat.zero_le _)))
  have hspace : skipSpace false (' ' :: c :: rest) m false false
      = skipSpace false (c :: rest) m.next false false := by
    rw [skipSpace] <;> simp [isBreak]
  have hcol : m.next.column ≠ 0 := Nat.succ_ne_zero _
  simp [toToken, atValue, inFlow, hspace, skipSpace_stop false hbreak hwhite hhash (.inr hcol)]

end Lexer

/-! ### Values -/

open Lexer

/-- Characters that are written after the colon of an entry, with the end of their line, are read as
    one scalar, and then the lexer is at the beginning of the next line. -/
def ReadsAs (written : List Char) (text : String) (isPlain : Bool) : Prop :=
  ∀ (rest : List Char) (m : Mark) (tokens : Array Token), StartsLine rest →
    ∃ m' : Mark, m'.column = 0 ∧ ∀ n,
      (atValue (' ' :: (written ++ rest)) m tokens).run? (n + 1)
        = (atLine rest m' (tokens.push (.scalar text isPlain)) false).run? n

/-- A value is read as a scalar if the reader for what it begins with gets to the next line. -/
theorem readsAs_of_read? {c : Char} {written : List Char} {text : String} {isPlain : Bool}
    (hbreak : isBreak c = false) (hwhite : isWhite c = false) (hhash : c ≠ '#')
    (h : ∀ (rest : List Char) (m : Mark) (tokens : Array Token), StartsLine rest → m.column ≠ 0 →
      ∃ (l : Lexer) (m' : Mark), m'.column = 0 ∧
        (atValue (c :: (written ++ rest)) m tokens).read? c (written ++ rest) = some l ∧
        l.toToken = atLine rest m' (tokens.push (.scalar text isPlain)) false) :
    ReadsAs (c :: written) text isPlain := by
  intro rest m tokens hrest
  obtain ⟨l, m', hm', hread, htoken⟩ := h rest m.next tokens hrest (Nat.succ_ne_zero _)
  refine ⟨m', hm', fun n => ?_⟩
  rw [List.cons_append, run?_atValue m tokens n hbreak hwhite hhash, hread, Option.bind_some]
  exact run?_congr (htoken.trans (toToken_atLine hrest _ _ _).symm) n

/-- A value of one line that has nothing to show but itself is read as a plain scalar. -/
theorem readsAs_plain {cs : List Char} (hne : cs ≠ [])
    (hcs : ∀ c ∈ cs, isPrintable c = true ∧ isBreak c = false) (hstart : startsAsSign cs = false)
    (hsign : hasInnerSign cs = false) (hfirst : cs.head? ≠ some ' ')
    (hlast : cs.getLast? ≠ some ' ') :
    ReadsAs (cs ++ ['\n']) (String.ofList cs) true := by
  obtain ⟨c, cs, rfl⟩ := List.exists_cons_of_ne_nil hne
  obtain ⟨hc, hbreak⟩ := hcs c List.mem_cons_self
  have hwhite : isWhite c = false := isWhite_of_isPrintable hc (by simpa using hfirst)
  simp only [startsAsSign, Bool.or_eq_false_iff] at hstart
  obtain ⟨⟨⟨hind, hsigns⟩, -⟩, -⟩ := hstart
  have hhash : c ≠ '#' := by rintro rfl; revert hind; decide
  rw [List.cons_append]
  apply readsAs_of_read? hbreak hwhite hhash
  intro rest m tokens hrest hm
  obtain ⟨m', hm', hread⟩ := readPlain_line Nat.one_pos hrest (c :: cs) m "" ""
    (Nat.one_le_iff_ne_zero.2 hm) hcs hsign hlast (fun _ => rfl) (fun h => absurd rfl h)
  refine ⟨atLine rest m' (tokens.push (.scalar (String.ofList (c :: cs)) true)) false, m', hm', ?_,
    toToken_atLine hrest _ _ _⟩
  -- What comes after the text ends a word, as the end of the text does.
  have hword : c = '-' ∨ c = '?' ∨ c = ':' → endsWord (cs ++ ['\n'] ++ rest) = false := by
    intro hc
    have : endsWord cs = false := by grind
    cases cs with
    | nil => simp [endsWord] at this
    | cons d cs => simpa [endsWord] using this
  rw [read?_eq_plain? (by simp [atValue, Cursor.atMarker, hm]) rfl hind hwhite hbreak hword]
  simp only [List.cons_append, List.append_assoc] at hread ⊢
  simp [plain?, saveKey?, atValue, inFlow, Gap.none, hread, allowKey, emit, atLine]

/-- After a scalar between quotes, the end of its line is passed over. -/
theorem toToken_afterQuotes {rest : List Char} (hrest : StartsLine rest) (m : Mark)
    (tokens : Array Token) :
    (atValue ('\n' :: rest) m tokens).toToken = atLine rest (m.newLine 1) tokens false := by
  rw [← toToken_atLine hrest]
  have : skipSpace false ('\n' :: rest) m false false
      = skipSpace false rest (m.newLine 1) false true := by
    rw [skipSpace] <;> simp [isBreak]
  simp [toToken, atValue, atLine, inFlow, this]

/-- A text in which spaces and line breaks are not neighbours can stand between single quotes. -/
theorem readsAs_single {cs : List Char} (hcs : ∀ c ∈ cs, isPrintable c = true ∧ c ≠ '\n')
    (hsb : hasPair (· == ' ') isBreak cs = false) (hbs : hasPair isBreak (· == ' ') cs = false) :
    ReadsAs ('\'' :: (writeSingle cs false ++ ['\'', '\n'])) (String.ofList cs) false := by
  apply readsAs_of_read? (by decide) (by decide) (by decide)
  intro rest m tokens hrest hm
  obtain ⟨m', hread⟩ := readSingle_writeSingle rest cs m.next "" .none (fun _ => Nat.succ_pos _)
    Gap.isKept_none hcs hsb hbs (by simp [Gap.isBroken, Gap.none]) (fun _ h => absurd rfl h)
  refine ⟨atValue ('\n' :: rest) m' (tokens.push (.scalar (String.ofList cs) false)), m'.newLine 1,
    rfl, ?_, toToken_afterQuotes hrest _ _⟩
  simp only [Gap.isBroken, Gap.none] at hread
  simp [read?, atValue, column, hm, Cursor.atMarker, quoted?, saveKey?, Cursor.next, Gap.none,
    hread, allowKey, emit]

/-- Every text can stand between double quotes. -/
theorem readsAs_double (cs : List Char) :
    ReadsAs ('"' :: (cs.flatMap writeEscaped ++ ['"', '\n'])) (String.ofList cs) false := by
  apply readsAs_of_read? (by decide) (by decide) (by decide)
  intro rest m tokens hrest hm
  obtain ⟨m', hread⟩ := readDouble_flatMap ('\n' :: rest) cs m.next "" "" (Nat.succ_pos _)
  refine ⟨atValue ('\n' :: rest) m' (tokens.push (.scalar (String.ofList cs) false)), m'.newLine 1,
    rfl, ?_, toToken_afterQuotes hrest _ _⟩
  simp [read?, atValue, column, hm, Cursor.atMarker, quoted?, saveKey?, Cursor.next, Gap.none,
    hread, allowKey, emit]

/-- A text whose characters can all be shown can be a block of lines. -/
theorem readsAs_literal {cs : List Char} (hne : cs ≠ []) (hcs : ∀ c ∈ cs, isPrintable c = true) :
    ReadsAs ('|' :: (indentSign cs ++ chompingSign cs ++ '\n'
      :: (writeLines cs true ++ lineEnding cs)))
      (String.ofList cs) false := by
  apply readsAs_of_read? (by decide) (by decide) (by decide)
  intro rest m tokens hrest hm
  obtain ⟨m', hm', hread⟩ := readBlock_writeLines hrest hne hcs m.next
  refine ⟨atLine rest m' (tokens.push (.scalar (String.ofList cs) false)) false, m', hm', ?_,
    toToken_atLine hrest _ _ _⟩
  simp only [List.append_assoc] at hread
  simp [read?, atValue, column, hm, Cursor.atMarker, block?, dropKey?, inFlow, endsWord,
    Cursor.next, hread, allowKey, emit, atLine]

/-! ### The writer's choice -/

/-- What is known of a text from the style that it is written in. -/
theorem styleOf_cases (text : String) :
    (styleOf text = .plain ∧ isTyped text = false ∧ (traitsOf text.toList).allowsPlain = true) ∨
    (styleOf text = .single ∧ '\n' ∉ text.toList ∧ (traitsOf text.toList).allowsSingle = true) ∨
    styleOf text = .double ∨
    (styleOf text = .literal ∧ '\n' ∈ text.toList ∧
    (traitsOf text.toList).allowsLiteral = true) := by
  simp only [styleOf]
  -- The choice is made in this order.
  by_cases hlines : text.toList.contains '\n' = true
  · rw [if_pos hlines]
    by_cases hliteral : (traitsOf text.toList).allowsLiteral = true
    · simp_all
    · simp [hliteral]
  · rw [if_neg hlines]
    by_cases hplain : (!isTyped text && (traitsOf text.toList).allowsPlain) = true
    · simp_all
    · rw [if_neg hplain]
      by_cases hsingle : (traitsOf text.toList).allowsSingle = true
      · simp_all
      · simp [hsingle]

/-- Nothing has to be escaped in a text without characters that cannot be shown. -/
theorem isPrintable_of_traitsOf {cs : List Char} (h : (traitsOf cs).unprintable = false) :
    ∀ c ∈ cs, isPrintable c = true := by
  intro c hc
  simpa using List.any_eq_false.1 h c hc

/-- Whatever the writer writes for a text is read as that text. -/
theorem readsAs_writeScalar (text : String) :
    ReadsAs (writeScalar text).toList text (decide (styleOf text = .plain)) := by
  have hlist := String.ofList_toList (s := text)
  obtain ⟨hstyle, htyped, h⟩ | ⟨hstyle, hlines, h⟩ | hstyle | ⟨hstyle, hlines, h⟩ :=
    styleOf_cases text
  · simp only [Traits.allowsPlain, traitsOf, Bool.and_eq_true, Bool.not_eq_true',
      Bool.or_eq_false_iff] at h
    obtain ⟨⟨⟨hun, hbreak⟩, hopen⟩, hstart, hsign⟩ := h
    -- The empty text would be read as nothing, and so is not plain.
    have hne : text.toList ≠ [] := by
      intro hnil
      obtain rfl : text = "" := String.toList_inj.1 hnil
      simp [isTyped, isNull] at htyped
    have hcs : ∀ c ∈ text.toList, isPrintable c = true ∧ isBreak c = false := fun c hc =>
      ⟨isPrintable_of_traitsOf hun c hc, by simpa using List.any_eq_false.1 hbreak c hc⟩
    have := readsAs_plain hne hcs hstart hsign (fun hc => by simp [hc] at hopen)
      (fun hc => by simp [hc] at hopen)
    simpa [writeScalar, hstyle, hlist] using this
  · simp only [Traits.allowsSingle, Bool.and_eq_true, Bool.not_eq_true'] at h
    obtain ⟨⟨hun, hsb⟩, hbs⟩ := h
    have hcs : ∀ c ∈ text.toList, isPrintable c = true ∧ c ≠ '\n' := fun c hc =>
      ⟨isPrintable_of_traitsOf hun c hc, fun hn => hlines (hn ▸ hc)⟩
    have := readsAs_single hcs hsb hbs
    simpa [writeScalar, hstyle, hlist] using this
  · simpa [writeScalar, hstyle, hlist] using readsAs_double text.toList
  · simp only [Traits.allowsLiteral, Bool.and_eq_true, Bool.not_eq_true'] at h
    have := readsAs_literal (List.ne_nil_of_mem hlines) (isPrintable_of_traitsOf h.1.1)
    simpa [writeScalar, hstyle, hlist, lineEnding] using this

example : writeScalar "yes: no" = "'yes: no'\n" := by decide +kernel

example : writeScalar " a\n\n" = "|2+\n   a\n\n" := by decide +kernel

/-- Whatever the writer writes may stand in a text. -/
theorem isAllowed_writeScalar (text : String) :
    ∀ c ∈ (writeScalar text).toList, isAllowed c = true := by
  have hshown : (traitsOf text.toList).unprintable = false → ∀ c ∈ text.toList,
    isAllowed c = true :=
    fun h c hc => isAllowed_of_isPrintable (isPrintable_of_traitsOf h c hc)
  have hsigns : [' ', '\n', '\'', '"', '|', '+', '-', '2'].all isAllowed = true := by decide
  rw [List.all_eq_true] at hsigns
  intro c hc
  -- Each style writes the characters of the text, its own signs, or escapes.
  obtain ⟨hstyle, -, h⟩ | ⟨hstyle, -, h⟩ | hstyle | ⟨hstyle, -, h⟩ := styleOf_cases text
  · simp only [Traits.allowsPlain, Bool.and_eq_true, Bool.not_eq_true'] at h
    simp only [writeScalar, hstyle, String.toList_ofList, List.mem_append] at hc
    obtain hc | hc := hc
    · exact hshown h.1.1.1 c hc
    · exact hsigns c (by simp_all)
  · simp only [Traits.allowsSingle, Bool.and_eq_true, Bool.not_eq_true'] at h
    simp only [writeScalar, hstyle, String.toList_ofList, List.cons_append, List.mem_cons,
      List.mem_append] at hc
    obtain rfl | hc | hc := hc
    · decide
    · obtain hc | rfl := mem_writeSingle _ _ hc
      · exact hshown h.1.1 c hc
      · decide
    · exact hsigns c (by grind)
  · simp only [writeScalar, hstyle, String.toList_ofList, List.cons_append, List.mem_cons,
      List.mem_append, List.mem_flatMap] at hc
    obtain rfl | ⟨d, -, hc⟩ | hc := hc
    · decide
    · exact isAllowed_of_mem_writeEscaped hc
    · exact hsigns c (by grind)
  · simp only [Traits.allowsLiteral, Bool.and_eq_true, Bool.not_eq_true'] at h
    simp only [writeScalar, hstyle, String.toList_ofList, List.cons_append, List.append_assoc,
      List.mem_cons, List.mem_append] at hc
    obtain rfl | hc | hc | rfl | hc | hc := hc
    · decide
    · exact hsigns c (by unfold indentSign at hc; grind)
    · exact hsigns c (by unfold chompingSign at hc; grind)
    · decide
    · obtain hc | rfl := mem_writeLines _ _ hc
      · exact hshown h.1.1 c hc
      · decide
    · exact hsigns c (by grind)

/-! ### Numbers -/

/-- A decimal digit has its value in base sixteen, too. -/
theorem hexDigit?_digitChar {n : Nat} (h : n < 10) : hexDigit? (Nat.digitChar n) = some n := by
  have : ∀ n : Fin 10, hexDigit? (Nat.digitChar n) = some n.val := by decide
  exact this ⟨n, h⟩

/-- The digits of a number have its value. -/
theorem digitsValue?_toDigits (n : Nat) : digitsValue? 10 (Nat.toDigits 10 n) = some n := by
  rw [digitsValue?, if_neg (by simp [Nat.toDigits_ne_nil])]
  induction n using Nat.strongRecOn with
  | ind n ih =>
    by_cases hn : n < 10
    · rw [Nat.toDigits_of_lt_base hn]
      simp [hexDigit?_digitChar hn, hn]
    · have hlt : n % 10 < 10 := Nat.mod_lt _ (by decide)
      have hvalue : n / 10 * 10 + n % 10 = n := by omega
      rw [Nat.toDigits_of_base_le (by decide) (Nat.not_lt.1 hn), List.foldlM_append,
        ih (n / 10) (by omega)]
      simp [hexDigit?_digitChar hlt, hlt, hvalue]

/-- The first digit of a number is not zero, unless the number is. -/
theorem head?_toDigits_ne_zero {n : Nat} (hn : n ≠ 0) : (Nat.toDigits 10 n).head? ≠ some '0' := by
  induction n using Nat.strongRecOn with
  | ind n ih =>
    by_cases h : n < 10
    · rw [Nat.toDigits_of_lt_base h]
      have : ∀ k : Fin 10, k.val ≠ 0 → Nat.digitChar k.val ≠ '0' := by decide
      simpa using this ⟨n, h⟩ hn
    · have hhead := ih (n / 10) (by omega) (by omega)
      rw [Nat.toDigits_of_base_le (by decide) (Nat.not_lt.1 h), List.head?_append]
      cases hdigits : Nat.toDigits 10 (n / 10) with
      | nil => exact absurd hdigits Nat.toDigits_ne_nil
      | cons d ds => simpa [hdigits] using hhead

/-- A number that fits is read back from its digits. -/
theorem unsigned?_toDigits {limit n : Nat} (h : n < limit) :
    unsigned? limit (Nat.toDigits 10 n) = some n := by
  have hplus : withoutPlus (Nat.toDigits 10 n) = Nat.toDigits 10 n := by
    unfold withoutPlus
    split
    next rest heq =>
      have hdigit : '+'.isDigit = true :=
        Nat.isDigit_of_mem_toDigits (by decide) (by decide) (heq ▸ List.mem_cons_self)
      exact absurd hdigit (by decide)
    next => rfl
  -- No digits but those of zero begin with a zero, so they are not taken for an octal number.
  have hmagnitude : magnitude? (Nat.toDigits 10 n) = some n := by
    by_cases hn : n = 0
    · subst hn
      decide
    · have hhead := head?_toDigits_ne_zero hn
      have hleading : hasLeadingZero (Nat.toDigits 10 n) = false := by
        unfold hasLeadingZero
        split
        next heq => simp [heq] at hhead
        next => rfl
      unfold magnitude?
      split
      iterate 3 next heq => simp [heq] at hhead
      rw [hleading, if_neg (by decide), digitsValue?_toDigits]
  simp [unsigned?, hplus, hmagnitude, h]

/-- A digit can be shown. -/
theorem isPrintable_of_isDigit {c : Char} (h : c.isDigit = true) : isPrintable c = true := by
  simp only [Char.isDigit, Bool.and_eq_true, decide_eq_true_eq] at h
  simp [isPrintable]
  grind

/-- The digits of a number are different from every sign. -/
theorem ne_of_mem_toDigits {n : Nat} {c d : Char} (hc : c ∈ Nat.toDigits 10 n)
    (hd : d.isDigit = false) : c ≠ d := by
  rintro rfl
  simp [Nat.isDigit_of_mem_toDigits (by decide) (by decide) hc] at hd

/-- Digits can be shown. -/
theorem isPrintable_of_mem_toDigits {n : Nat} {c : Char} (hc : c ∈ Nat.toDigits 10 n) :
    isPrintable c = true :=
  isPrintable_of_isDigit (Nat.isDigit_of_mem_toDigits (by decide) (by decide) hc)

/-- A number is read back as its digits. -/
theorem readsAs_decimal (n : Nat) : ReadsAs ((decimal n).toList ++ ['\n']) (decimal n) true := by
  have hspace : ∀ c ∈ Nat.toDigits 10 n, isWhite c = false ∧ isBreak c = false := by
    intro c hc
    simp [isWhite, isBreak, ne_of_mem_toDigits hc]
  rw [decimal, String.toList_ofList]
  -- Digits are no indicators, no blanks and no signs, so they can be written plainly.
  apply readsAs_plain Nat.toDigits_ne_nil
  · exact fun c hc => ⟨isPrintable_of_mem_toDigits hc, (hspace c hc).2⟩
  · cases hdigits : Nat.toDigits 10 n with
    | nil => rfl
    | cons c cs =>
      have hc : ∀ d : Char, d.isDigit = false → c ≠ d := fun d =>
        ne_of_mem_toDigits (hdigits ▸ List.mem_cons_self)
      have hdash : ('-' == c) = false := by simp [(hc '-' (by decide)).symm]
      have hdot : ('.' == c) = false := by simp [(hc '.' (by decide)).symm]
      simp [startsAsSign, isIndicator, hc, List.isPrefixOf, hdash, hdot]
  · have hcolon : hasPair (· == ':') (fun c => isWhite c || isBreak c) (Nat.toDigits 10 n)
      = false :=
      hasPair_eq_false fun c hc => by simp [ne_of_mem_toDigits hc]
    have hhash : hasPair (fun c => isWhite c || isBreak c) (· == '#') (Nat.toDigits 10 n) = false :=
      hasPair_eq_false fun c hc => by simp [hspace c hc]
    have hlast : (Nat.toDigits 10 n).getLast? ≠ some ':' := fun h =>
      ne_of_mem_toDigits (List.mem_of_getLast? h) (d := ':') (by decide) rfl
    simp [hasInnerSign, hcolon, hhash, hlast]
  · exact fun h => ne_of_mem_toDigits (List.mem_of_head? h) (d := ' ') (by decide) rfl
  · exact fun h => ne_of_mem_toDigits (List.mem_of_getLast? h) (d := ' ') (by decide) rfl

/-- A number with the end of its line may stand in a text. -/
theorem isAllowed_decimal (n : Nat) : ∀ c ∈ (decimal n).toList ++ ['\n'], isAllowed c = true := by
  intro c hc
  rw [decimal, String.toList_ofList, List.mem_append, List.mem_singleton] at hc
  obtain hc | rfl := hc
  · exact isAllowed_of_isPrintable (isPrintable_of_mem_toDigits hc)
  · decide

end XmlHighlight.Yaml
