import XmlHighlight.Proofs.PlainScalars

/-!
# Block scalars — what is written as a block of lines is read back

The writer puts a margin before each line that is not empty, and says at the top of the block how
deep it is, if its first line does not show that, and what becomes of the line breaks at its end.
What has been read of a block is compared with the text up to there.

* `Yaml.PartialBlock.Holds` — a block as far as it has been read stands for a text;
* `Yaml.readLines_writeLines` — the lines of a block are read back;
* `Yaml.readBlockStyle?_signs` — so is the top of a block;
* `Yaml.readBlock_writeLines` — and the whole of it.
-/

namespace XmlHighlight.Yaml

/-! ### The end of a block -/

/-- What the writer asks for at the end of a text. -/
def chompingFor (cs : List Char) : Chomping :=
  if chompingSign cs = ['+'] then .keep else if chompingSign cs = ['-'] then .strip else .clip

/-- Nothing is missing at the end of the last line of a text. -/
def endsLine (cs : List Char) : Bool := cs.getLast?.all isBreak

/-- What the writer adds to a text to end its last line. -/
def lineEnding (cs : List Char) : List Char := if cs.getLast?.any isBreak then [] else ['\n']

theorem endsLine_append (cs : List Char) (c : Char) : endsLine (cs ++ [c]) = isBreak c := by
  simp [endsLine]

/-- All line breaks at the end are kept if there are several. -/
theorem chompingSign_append_break {cs : List Char} {c : Char} (hcs : endsLine cs = true)
    (hc : isBreak c = true) : chompingSign (cs ++ [c]) = ['+'] := by
  have hlast : cs.getLast?.all isBreak = true := hcs
  simp [chompingSign, hc, hlast]

/-- The line break that the writer adds is taken away again. -/
theorem chompingFor_of_not_endsLine {cs : List Char} (h : endsLine cs = false) :
    chompingFor cs = .strip := by
  obtain rfl | ⟨init, c, rfl⟩ := List.eq_nil_or_concat cs
  · simp [endsLine] at h
  · rw [List.concat_eq_append, endsLine_append] at h
    simp [chompingFor, chompingSign, h]

/-- No line break of the text is taken away. -/
theorem chompingFor_of_endsLine {cs : List Char} (h : endsLine cs = true) (hne : cs ≠ []) :
    chompingFor cs = if chompingSign cs = ['+'] then .keep else .clip := by
  obtain rfl | ⟨init, c, rfl⟩ := List.eq_nil_or_concat cs
  · exact absurd rfl hne
  · rw [List.concat_eq_append, endsLine_append] at h
    by_cases hinit : init.getLast?.all isBreak = true <;> simp [chompingFor, chompingSign, h, hinit]

/-! ### Blocks in the making -/

namespace PartialBlock

/-- What has been read of a block stands for a text. Inside a line nothing comes after it, and only
    several line breaks make empty lines. -/
structure Holds (b : PartialBlock) (cs : List Char) : Prop where
  whole : b.text.toList ++ b.lineEnd.toList ++ b.emptyLines = cs
  inLine : endsLine cs = false → b.lineEnd = none ∧ b.emptyLines = []
  emptyLines : b.emptyLines ≠ [] → chompingSign cs = ['+']

theorem holds_nil : Holds ⟨"", none, [], false⟩ [] :=
  ⟨rfl, by simp [endsLine], by simp⟩

variable {b : PartialBlock} {cs : List Char} {c : Char}

/-- One more character of a line. -/
theorem Holds.addChar (h : b.Holds cs) (hcs : endsLine cs = false) :
    Holds { b with text := b.text.push c } (cs ++ [c]) := by
  obtain ⟨hend, hempty⟩ := h.inLine hcs
  refine ⟨?_, fun _ => ⟨hend, hempty⟩, fun hn => absurd hempty hn⟩
  simp [← h.whole, hend, hempty]

/-- The end of a line. -/
theorem Holds.endLine (h : b.Holds cs) (hcs : endsLine cs = false) (hc : isBreak c = true) :
    Holds { b with lineEnd := some c } (cs ++ [c]) := by
  obtain ⟨hend, hempty⟩ := h.inLine hcs
  refine ⟨?_, fun hn => ?_, fun hn => absurd hempty hn⟩
  · simp [← h.whole, hend, hempty]
  · rw [endsLine_append, hc] at hn
    contradiction

/-- An empty line. -/
theorem Holds.addEmptyLine (h : b.Holds cs) (hcs : endsLine cs = true) (hc : isBreak c = true) :
    Holds { b with emptyLines := b.emptyLines ++ [c] } (cs ++ [c]) := by
  refine ⟨by simp [← h.whole], fun hn => ?_, fun _ => chompingSign_append_break hcs hc⟩
  rw [endsLine_append, hc] at hn
  contradiction

/-- The first character of a line. In a literal block, the breaks before it stand for themselves. -/
theorem Holds.beginLine {style : BlockStyle} (hstyle : style.isLiteral = true) (h : b.Holds cs) :
    Holds ⟨(b.joined style c).push c, none, [], isWhite c⟩ (cs ++ [c]) := by
  refine ⟨?_, fun _ => ⟨rfl, rfl⟩, fun hn => absurd rfl hn⟩
  simp [← h.whole, joined, hstyle]

/-- A block that ends with a line stands for its text. -/
theorem Holds.finish {style : BlockStyle} (h : b.Holds cs) (hcs : endsLine cs = true)
    (hne : cs ≠ [])
    (hstyle : style.chomping = chompingFor cs) : b.finish style = String.ofList cs := by
  rw [chompingFor_of_endsLine hcs hne] at hstyle
  by_cases hplus : chompingSign cs = ['+']
  · rw [if_pos hplus] at hstyle
    simp [PartialBlock.finish, hstyle, ← h.whole, String.append_assoc]
  · rw [if_neg hplus] at hstyle
    have hempty : b.emptyLines = [] := Classical.byContradiction fun hn => hplus (h.emptyLines hn)
    simp [PartialBlock.finish, hstyle, ← h.whole, hempty]

/-- So does one to which the end of its line has been added. -/
theorem Holds.finish_endLine {style : BlockStyle} (h : b.Holds cs) (hcs : endsLine cs = false)
    (hstyle : style.chomping = chompingFor cs) :
    PartialBlock.finish { b with lineEnd := some '\n' } style = String.ofList cs := by
  obtain ⟨hend, hempty⟩ := h.inLine hcs
  rw [chompingFor_of_not_endsLine hcs] at hstyle
  simp [PartialBlock.finish, hstyle, ← h.whole, hend, hempty]

end PartialBlock

/-! ### Lines -/

/-- In the lines of a block stand characters of the text, and spaces. -/
theorem mem_writeLines {c : Char} (cs : List Char) :
    ∀ atLineStart, c ∈ writeLines cs atLineStart → c ∈ cs ∨ c = ' ' := by
  induction cs with
  | nil => simp [writeLines]
  | cons d cs ih =>
    intro atLineStart h
    have hrest : ∀ atLineStart, c ∈ writeLines cs atLineStart → c ∈ d :: cs ∨ c = ' ' :=
      fun _ h => (ih _ h).imp_left (List.mem_cons_of_mem d)
    unfold writeLines at h
    by_cases hd : isBreak d = true
    · rw [if_pos hd, List.mem_cons] at h
      obtain rfl | h := h
      · exact .inl List.mem_cons_self
      · exact hrest _ h
    · rw [if_neg hd, List.mem_append, List.mem_cons] at h
      -- At the beginning of a line there are the blanks of the margin.
      obtain h | rfl | h := h
      · cases atLineStart <;> simp_all [margin]
      · exact .inl List.mem_cons_self
      · exact hrest _ h

/-- A block ends before a line that is not indented. -/
theorem readLines_of_startsLine (style : BlockStyle) {rest : List Char} (hrest : StartsLine rest)
    {m : Mark} (hm : m.column = 0) (b : PartialBlock) :
    readLines style 2 rest m false b = some (b.finish style, ⟨rest, m⟩) := by
  cases rest with
  | nil => simp [readLines]
  | cons c rest =>
    have hc := startsLine_cons.1 hrest
    have hne : ∀ d : Char, d.isAlpha = false → c ≠ d := fun d => ne_of_isAlpha hc
    rw [readLines] <;> simp [hne, hm, isBreak_of_isAlpha hc]

/-- The margin of a line is passed over. -/
theorem readLines_margin (style : BlockStyle) (rest : List Char) {m : Mark} (hm : m.column = 0)
    (b : PartialBlock) :
    readLines style 2 (margin ++ rest) m false b = readLines style 2 rest m.next.next false b := by
  simp [margin, readLines, hm, Mark.next]

/-- The lines of a block are read back, from wherever the text before the cursor ends. -/
theorem readLines_writeLines (style : BlockStyle) (hstyle : style.isLiteral = true)
    {rest : List Char} (hrest : StartsLine rest) (cs : List Char) :
    ∀ (before : List Char) (m : Mark) (b : PartialBlock), before ++ cs ≠ [] →
      style.chomping = chompingFor (before ++ cs) → b.Holds before →
      (endsLine before = true → m.column = 0) → (∀ c ∈ cs, isPrintable c = true) →
      ∃ m' : Mark, m'.column = 0 ∧
        readLines style 2 (writeLines cs (endsLine before) ++ (lineEnding (before ++ cs) ++ rest)) m
            (!endsLine before) b
          = some (String.ofList (before ++ cs), ⟨rest, m'⟩) := by
  induction cs with
  | nil =>
    intro before m b hne hchomping hb hm _
    rw [List.append_nil] at hne hchomping ⊢
    by_cases hend : endsLine before = true
    · have hending : lineEnding before = [] := by
        cases hlast : before.getLast? with
        | none => exact absurd (List.getLast?_eq_none_iff.1 hlast) hne
        | some c => simpa [lineEnding, endsLine, hlast] using hend
      refine ⟨m, hm hend, ?_⟩
      rw [hending, hend, writeLines, List.nil_append, List.nil_append, Bool.not_true,
        readLines_of_startsLine style hrest (hm hend), hb.finish hend hne hchomping]
    · replace hend : endsLine before = false := by simpa using hend
      have hending : lineEnding before = ['\n'] := by
        cases hlast : before.getLast? with
        | none => simp [endsLine, hlast] at hend
        | some c =>
          have hc : isBreak c = false := by simpa [endsLine, hlast] using hend
          simp [lineEnding, hlast, hc]
      refine ⟨m.newLine 1, rfl, ?_⟩
      rw [hending, hend, writeLines, List.nil_append, Bool.not_false, List.singleton_append,
        readLines]
      · simp only [if_true, show isBreak '\n' = true by decide,
          show breakChar '\n' = '\n' by decide]
        rw [readLines_of_startsLine style hrest rfl, hb.finish_endLine hend hchomping]
      · simp
  | cons c cs ih =>
    intro before m b hne hchomping hb hm hcs
    have hc := hcs c List.mem_cons_self
    have hr := ne_return_of_isPrintable hc
    have htab : c ≠ '\t' := by rintro rfl; revert hc; decide
    -- The text after `c` is read with `c` as part of the text before it.
    have hstep : ∀ (m₁ : Mark) (b₁ : PartialBlock), b₁.Holds (before ++ [c]) →
        (isBreak c = true → m₁.column = 0) → ∃ m' : Mark, m'.column = 0 ∧
          readLines style 2
              (writeLines cs (isBreak c) ++ (lineEnding (before ++ c :: cs) ++ rest)) m₁
                (!isBreak c) b₁
            = some (String.ofList (before ++ c :: cs), ⟨rest, m'⟩) := by
      intro m₁ b₁ hb₁ hm₁
      have := ih (before ++ [c]) m₁ b₁ (by simp) (by simpa using hchomping) hb₁
        (by simpa [endsLine_append] using hm₁) (fun d hd => hcs d (List.mem_cons_of_mem _ hd))
      simpa [endsLine_append] using this
    generalize lineEnding (before ++ c :: cs) ++ rest = tail at hstep ⊢
    by_cases hbreak : isBreak c = true
    · -- A line break ends a line, or stands for an empty one.
      have hchar := breakChar_of_isPrintable hc hbreak
      have hspace : c ≠ ' ' := by rintro rfl; revert hbreak; decide
      simp only [hbreak, writeLines, if_true, List.cons_append, Bool.not_true] at hstep ⊢
      by_cases hend : endsLine before = true
      · obtain ⟨m', hm', hread⟩ :=
          hstep (m.newLine 1) _ (hb.addEmptyLine hend hbreak) (fun _ => rfl)
        refine ⟨m', hm', ?_⟩
        rw [readLines]
        · simp [hend, hbreak, hspace, htab, hchar, hread]
        · simp [hr]
      · replace hend : endsLine before = false := by simpa using hend
        obtain ⟨m', hm', hread⟩ := hstep (m.newLine 1) _ (hb.endLine hend hbreak) (fun _ => rfl)
        refine ⟨m', hm', ?_⟩
        rw [readLines]
        · simp [hend, hbreak, hchar, hread]
        · simp [hr]
    · -- Any other character begins a line behind the margin, or goes on with one.
      replace hbreak : isBreak c = false := by simpa using hbreak
      simp only [hbreak, writeLines, Bool.false_eq_true, if_false, Bool.not_false] at hstep ⊢
      by_cases hend : endsLine before = true
      · obtain ⟨m', hm', hread⟩ := hstep m.next.next.next _ (hb.beginLine hstyle) (by simp)
        refine ⟨m', hm', ?_⟩
        have hcol : m.next.next.column = 2 := by simp [Mark.next, hm hend]
        rw [hend, if_pos rfl, List.append_assoc, List.cons_append, Bool.not_true,
          readLines_margin style _ (hm hend), readLines]
        · simp [hbreak, hcol, hread]
        · simp [hr]
      · replace hend : endsLine before = false := by simpa using hend
        obtain ⟨m', hm', hread⟩ := hstep m.next _ (hb.addChar hend) (by simp)
        refine ⟨m', hm', ?_⟩
        rw [hend, if_neg (by decide), List.nil_append, List.cons_append, Bool.not_false, readLines]
        · simp [hbreak, hread]
        · simp [hr]

/-! ### The top of a block -/

/-- The signs at the top of a block are read back. -/
theorem readBlockStyle?_signs (cs : List Char) (m : Mark) (rest : List Char) :
    ∃ m', readBlockStyle? true ⟨indentSign cs ++ chompingSign cs ++ '\n' :: rest, m⟩
      = some (⟨true, chompingFor cs, if indentSign cs = [] then none else some 2⟩,
          ⟨'\n' :: rest, m'⟩) := by
  have hindent : indentSign cs = ['2'] ∨ indentSign cs = [] := by
    unfold indentSign
    split <;> simp
  have hchomping : chompingSign cs = ['+'] ∨ chompingSign cs = [] ∨ chompingSign cs = ['-'] := by
    unfold chompingSign
    grind
  obtain hi | hi := hindent <;> obtain hc | hc | hc := hchomping <;>
    simp [hi, hc, chompingFor, readBlockStyle?, Cursor.next]

/-! ### The whole block -/

/-- A first line that begins with a character other than a space or a line break shows how deep the
    block is. -/
theorem readEmptyLines_margin {c : Char} (hc : isPrintable c = true) (hspace : c ≠ ' ')
    (hbreak : isBreak c = false) (rest : List Char) {m : Mark} (hm : m.column = 0) :
    readEmptyLines (margin ++ c :: rest) m 0 [] = some (2, [], ⟨c :: rest, m.next.next⟩) := by
  have hr := ne_return_of_isPrintable hc
  have htab : c ≠ '\t' := by rintro rfl; revert hc; decide
  have hspaces : readEmptyLines (margin ++ c :: rest) m 0 []
      = readEmptyLines (c :: rest) m.next.next 0 [] := by simp [margin, readEmptyLines]
  rw [hspaces, readEmptyLines]
  · simp [hspace, htab, hbreak, Mark.next, hm]
  · simp [hr]

/-- A block is read back. -/
theorem readBlock_writeLines {rest : List Char} (hrest : StartsLine rest) {cs : List Char}
    (hne : cs ≠ []) (hcs : ∀ c ∈ cs, isPrintable c = true) (m : Mark) :
    ∃ m' : Mark, m'.column = 0 ∧
      readBlock true 1 ⟨indentSign cs ++ chompingSign cs ++ '\n' :: (writeLines cs true ++
          (lineEnding cs ++ rest)), m⟩
        = some (String.ofList cs, ⟨rest, m'⟩) := by
  obtain ⟨m₁, hstyle⟩ := readBlockStyle?_signs cs m (writeLines cs true ++ (lineEnding cs ++ rest))
  have hend : Cursor.skipToLineEnd? ⟨'\n' :: (writeLines cs true ++ (lineEnding cs ++ rest)), m₁⟩
      = some ⟨writeLines cs true ++ (lineEnding cs ++ rest), m₁.newLine 1⟩ := by
    simp [Cursor.skipToLineEnd?, Cursor.skipWhile, Cursor.skipRun, isWhite, isBreak,
      Cursor.nextLine]
  obtain ⟨m', hm', hread⟩ := readLines_writeLines ⟨true, chompingFor cs,
    if indentSign cs = [] then none else some 2⟩ rfl hrest cs [] (m₁.newLine 1) _ hne rfl
    PartialBlock.holds_nil (fun _ => rfl) hcs
  simp only [List.nil_append, show endsLine [] = true from rfl, Bool.not_true] at hread
  refine ⟨m', hm', ?_⟩
  rw [readBlock, hstyle]
  -- Without a sign for it, the indentation is that of the first line that is not empty.
  by_cases hindent : indentSign cs = []
  · obtain ⟨c, cs, rfl⟩ := List.exists_cons_of_ne_nil hne
    obtain ⟨hspace, hbreak⟩ : c ≠ ' ' ∧ isBreak c = false := by
      simpa [indentSign] using hindent
    have hline : ∀ tail, writeLines (c :: cs) true ++ tail
        = margin ++ c :: (writeLines cs false ++ tail) := by simp [writeLines, hbreak]
    have hempty := readEmptyLines_margin (hcs c List.mem_cons_self) hspace hbreak
      (writeLines cs false ++ (lineEnding (c :: cs) ++ rest)) (m := m₁.newLine 1) rfl
    simp only [hline] at hend hread ⊢
    rw [if_pos hindent, readLines_margin _ _ rfl] at hread
    simpa [hend, hindent, hempty] using hread
  · rw [if_neg hindent] at hread
    simp [hend, hindent, hread]

end XmlHighlight.Yaml
