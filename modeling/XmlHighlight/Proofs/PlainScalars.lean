import XmlHighlight.Yaml.Token
import XmlHighlight.Yaml.Writer

/-!
# Plain scalars — what is written without quotes is read back

The writer leaves a text as it is when nothing in it would end a plain scalar. The reader goes
through such a text to the end of its line: white space is held back until the next character shows
that it is inside the scalar.

* `Yaml.StartsLine` — what may come after the line of an entry;
* `Yaml.hasPair_cons_eq_false` — a text without certain neighbours;
* `Yaml.readPlain_line` — the scalar is the text of its line;
* `Yaml.Lexer.read?_eq_plain?` — its first character is not taken for a sign.
-/

namespace XmlHighlight.Yaml

/-! ### Characters -/

/-- A text can only be read if all of its characters are allowed, and the writer shows no others. -/
theorem isAllowed_of_isPrintable {c : Char} (h : isPrintable c = true) : isAllowed c = true := by
  simp only [isPrintable, isAllowed, Bool.or_eq_true, Bool.and_eq_true, beq_iff_eq,
    decide_eq_true_eq, bne_iff_ne] at h ⊢
  grind

/-- The line breaks that can be shown stand for themselves. -/
theorem breakChar_of_isPrintable {c : Char} (h : isPrintable c = true) (hb : isBreak c = true) :
    breakChar c = c := by
  simp only [isBreak, Bool.or_eq_true, beq_iff_eq] at hb
  obtain (((rfl | rfl) | rfl) | rfl) | rfl := hb <;> revert h <;> decide

/-- The only white space that can be shown is a space. -/
theorem isWhite_of_isPrintable {c : Char} (h : isPrintable c = true) (hc : c ≠ ' ') :
    isWhite c = false := by
  have ht : c ≠ '\t' := by rintro rfl; revert h; decide
  simp [isWhite, hc, ht]

/-- A carriage return cannot be shown. -/
theorem ne_return_of_isPrintable {c : Char} (h : isPrintable c = true) : c ≠ '\r' := by
  rintro rfl
  revert h
  decide

/-! ### Lines -/

/-- Nothing, or a line that begins with a letter: what comes after an entry. -/
def StartsLine (rest : List Char) : Prop := ∀ c, rest.head? = some c → c.isAlpha = true

theorem startsLine_nil : StartsLine [] := by simp [StartsLine]

theorem startsLine_cons {c : Char} {rest : List Char} :
    StartsLine (c :: rest) ↔ c.isAlpha = true := by simp [StartsLine]

/-- A letter is different from every sign. -/
theorem ne_of_isAlpha {c d : Char} (h : c.isAlpha = true) (hd : d.isAlpha = false) : c ≠ d := by
  rintro rfl
  simp [h] at hd

theorem isBreak_of_isAlpha {c : Char} (h : c.isAlpha = true) : isBreak c = false := by
  simp [isBreak, ne_of_isAlpha h]

theorem isWhite_of_isAlpha {c : Char} (h : c.isAlpha = true) : isWhite c = false := by
  simp [isWhite, ne_of_isAlpha h]

/-! ### Neighbours -/

/-- No two neighbours of a text are of certain kinds. -/
@[simp] theorem hasPair_cons_eq_false {p q : Char → Bool} {c : Char} {rest : List Char} :
    hasPair p q (c :: rest) = false ↔
      (p c = true → ∀ d, rest.head? = some d → q d = false) ∧ hasPair p q rest = false := by
  cases rest with
  | nil => simp [hasPair]
  | cons d rest => simp [hasPair]

/-- No pair begins with a character of a text that contains none of its kind. -/
theorem hasPair_eq_false {p q : Char → Bool} {cs : List Char} (h : ∀ c ∈ cs, p c = false) :
    hasPair p q cs = false := by
  induction cs with
  | nil => rfl
  | cons c cs ih =>
    rw [hasPair_cons_eq_false]
    refine ⟨fun hc => ?_, ih fun d hd => h d (List.mem_cons_of_mem _ hd)⟩
    simp [h c List.mem_cons_self] at hc

/-- A text without inner signs has none from its second character on. -/
theorem hasInnerSign_of_cons {c : Char} {cs : List Char} (h : hasInnerSign (c :: cs) = false) :
    hasInnerSign cs = false := by
  simp only [hasInnerSign, Bool.or_eq_false_iff, hasPair_cons_eq_false] at h ⊢
  refine ⟨⟨h.1.1.2, ?_⟩, h.2.2⟩
  cases cs with
  | nil => rfl
  | cons d cs => simpa [List.getLast?_cons_cons] using h.1.2

/-- No hash sign follows a space in a text without inner signs. -/
theorem head?_ne_hash {cs : List Char} (h : hasInnerSign (' ' :: cs) = false) :
    cs.head? ≠ some '#' := by
  intro hc
  simp [hasInnerSign, hc, isWhite] at h

/-- A colon in a text without inner signs does not end a word. -/
theorem endsWord_of_colon {cs rest : List Char} (h : hasInnerSign (':' :: cs) = false) :
    endsWord (cs ++ rest) = false := by
  cases cs with
  | nil => simp [hasInnerSign] at h
  | cons d cs =>
    simp only [hasInnerSign, Bool.or_eq_false_iff, hasPair_cons_eq_false] at h
    simpa [endsWord] using h.1.1.1 (by decide) d

/-! ### Reading -/

/-- A plain scalar ends with its line if the next line is not indented. -/
theorem readPlain_newline {margin : Nat} (hmargin : 0 < margin) {rest : List Char}
    (hrest : StartsLine rest) (m : Mark) (text : String) :
    readPlain false margin ('\n' :: rest) m text .none
      = some (text, true, ⟨rest, m.newLine 1⟩) := by
  have hbreak : readPlain false margin ('\n' :: rest) m text .none
      = readPlain false margin rest (m.newLine 1) text (.broken (some '\n') []) := by
    simp [readPlain, isWhite, isBreak, Gap.addBreak, Gap.none, breakChar]
  rw [hbreak]
  cases rest with
  | nil => simp [readPlain, Gap.isBroken]
  | cons c rest =>
    have hc := startsLine_cons.1 hrest
    have hr : c ≠ '\r' := ne_of_isAlpha hc (by decide)
    simp [readPlain, isWhite_of_isAlpha hc, isBreak_of_isAlpha hc, hr, Gap.none, Gap.isBroken,
      Mark.newLine, hmargin]

/-- A character that neither is white space nor ends the scalar is added to it, with the white space
    before it. -/
theorem readPlain_char {margin : Nat} {c : Char} {rest : List Char} {m : Mark}
    (text spaces : String)
    (hwhite : isWhite c = false) (hbreak : isBreak c = false)
    (hgap : spaces ≠ "" → margin ≤ m.column ∧ 0 < m.column ∧ c ≠ '#')
    (hcolon : c = ':' → endsWord rest = false) :
    readPlain false margin (c :: rest) m text (.inline spaces)
      = readPlain false margin rest m.next ((text ++ spaces).push c) .none := by
  have hr : c ≠ '\r' := by rintro rfl; revert hbreak; decide
  -- A margin, a comment or a marker would end the scalar, but only after white space.
  have hinside : ¬ (spaces ≠ "" ∧ ((m.column < margin ∨ c = '#') ∨
      m.column = 0 ∧ isMarker (c :: rest) = true)) := by grind
  have hend : ¬ (c = ':' ∧ endsWord rest = true) := by grind
  rw [readPlain]
  · simp only [hwhite, hbreak, Gap.none, Gap.text]
    grind
  · grind

/-- A plain scalar is its line, without the break at the end. -/
theorem readPlain_line {margin : Nat} (hmargin : 0 < margin) {rest : List Char}
    (hrest : StartsLine rest) (cs : List Char) :
    ∀ (m : Mark) (text spaces : String), margin ≤ m.column →
      (∀ c ∈ cs, isPrintable c = true ∧ isBreak c = false) → hasInnerSign cs = false →
      cs.getLast? ≠ some ' ' → (cs = [] → spaces = "") → (spaces ≠ "" → cs.head? ≠ some '#') →
      ∃ m' : Mark, m'.column = 0 ∧
        readPlain false margin (cs ++ '\n' :: rest) m text (.inline spaces)
          = some (text ++ spaces ++ String.ofList cs, true, ⟨rest, m'⟩) := by
  induction cs with
  | nil =>
    intro m text spaces _ _ _ _ hspaces _
    refine ⟨m.newLine 1, rfl, ?_⟩
    rw [hspaces rfl]
    simpa [Gap.none] using readPlain_newline hmargin hrest m text
  | cons c cs ih =>
    intro m text spaces hm hcs hsign hlast _ hhash
    obtain ⟨hc, hbreak⟩ := hcs c List.mem_cons_self
    have hcs' : ∀ d ∈ cs, isPrintable d = true ∧ isBreak d = false :=
      fun d hd => hcs d (List.mem_cons_of_mem _ hd)
    have hlast' : cs.getLast? ≠ some ' ' := by
      cases cs with
      | nil => simp
      | cons d cs => simpa [List.getLast?_cons_cons] using hlast
    by_cases hspace : c = ' '
    · -- The space is held back; there is a character after it, since it is not the last.
      subst hspace
      have hne : cs ≠ [] := by rintro rfl; simp at hlast
      obtain ⟨m', hm', hread⟩ := ih m.next text (spaces.push ' ') (Nat.le_succ_of_le hm) hcs'
        (hasInnerSign_of_cons hsign) hlast' (fun h => absurd h hne) (fun _ => head?_ne_hash hsign)
      refine ⟨m', hm', ?_⟩
      rw [List.cons_append, readPlain]
      · simp [isWhite, Gap.addWhite, hread, ← String.toList_inj]
      · simp
    · -- Any other character shows that the white space before it is inside the scalar.
      obtain ⟨m', hm', hread⟩ := ih m.next ((text ++ spaces).push c) "" (Nat.le_succ_of_le hm) hcs'
        (hasInnerSign_of_cons hsign) hlast' (fun _ => rfl) (fun h => absurd rfl h)
      refine ⟨m', hm', ?_⟩
      rw [List.cons_append, readPlain_char text spaces (isWhite_of_isPrintable hc hspace) hbreak
        (fun h => ⟨hm, Nat.lt_of_lt_of_le hmargin hm, fun hc => hhash h (by simp [hc])⟩)
        (fun hcolon => endsWord_of_colon (hcolon ▸ hsign)), Gap.none, hread]
      simp [← String.toList_inj]

/-- A character that is no sign where it stands begins a plain scalar. -/
theorem Lexer.read?_eq_plain? {l : Lexer} {c : Char} {rest : List Char}
    (hmarker : l.cursor.atMarker = false) (hflow : l.inFlow = false) (hind : isIndicator c = false)
    (hwhite : isWhite c = false) (hbreak : isBreak c = false)
    (hsign : c = '-' ∨ c = '?' ∨ c = ':' → endsWord rest = false) :
    l.read? c rest = l.plain? := by
  have hne := hind
  simp [isIndicator] at hne
  -- Only `-`, `?` and `:` may begin a plain scalar or not, and what follows them decides.
  have hbegins : beginsPlain l.inFlow c rest = true := by
    unfold beginsPlain
    split
    · have := hsign (.inl rfl)
      cases rest <;> simp_all [endsWord]
    · simp [hflow, hsign]
    · simp [hflow, hsign]
    · simpa [hwhite, hbreak, isIndicator] using hind
  unfold Lexer.read?
  rw [if_neg (by simp [hne]), if_neg (by simp [hmarker])]
  split <;> try simp_all
  grind

end XmlHighlight.Yaml
