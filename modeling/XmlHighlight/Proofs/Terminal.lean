import XmlHighlight.Render.Ansi

/-!
# Terminal — what the output for a terminal shows

A terminal keeps the ink in which it shows characters, until a control sequence changes it. What is
written for a terminal changes the ink exactly where the class of the characters changes, so that
each is shown in the color of its own class.

* `Terminal`, `Terminal.feed` — a terminal, and what it makes of characters that are sent to it;
* `Terminal.feed_setColor`, `Terminal.feed_reset` — the two kinds of sequences;
* `Ansi.output`, `Ansi.toList_finish` — what is written from a character on, and that nothing else
  is;
* `Terminal.feed_output` — what a terminal makes of it;
* `Ansi.pieces`, `Ansi.output_eq_pieces` — the characters, each with the sequences before it, and
  `Terminal.feed_pieces`, the ink that these sequences alone lead to;
* `Ansi.withoutSequences_output` — what is left of the output without its sequences;
* `terminal_shows_text` — the output for a whole buffer.
-/

namespace XmlHighlight

/-- The first character of a text comes with its own bytes. -/
theorem utf8ByteSize_ofList_cons (c : Char) (cs : List Char) :
    (String.ofList (c :: cs)).utf8ByteSize = c.utf8Size + (String.ofList cs).utf8ByteSize := by
  rw [String.ofList_cons, String.utf8ByteSize_append, String.utf8ByteSize_singleton]

/-! ### Terminals -/

/-- The color in which a terminal shows characters. -/
structure Ink where
  red : Nat
  green : Nat
  blue : Nat
  deriving DecidableEq, Repr

/-- A color, whose opacity a terminal does not know. -/
def Color.ink (color : Color) : Ink := ⟨color.red.toNat, color.green.toNat, color.blue.toNat⟩

/-- Where a terminal is with respect to control sequences. -/
inductive SequenceState where
  /-- Not in a sequence. -/
  | outside
  /-- Behind the character that begins one. -/
  | begun
  /-- Among its numbers. The last one may still go on. -/
  | inside (numbers : List Nat) (last : Nat)
  deriving DecidableEq, Repr

/-- A terminal: the characters that it shows, each in its ink or in none, the ink for the next one,
    and where it is with respect to sequences. -/
structure Terminal where
  shown : List (Char × Option Ink)
  ink : Option Ink
  state : SequenceState
  deriving DecidableEq, Repr

/-- The character that begins a control sequence. -/
def escape : Char := '\x1b'

namespace Terminal

/-- A terminal to which nothing has been sent. -/
def blank : Terminal := ⟨[], none, .outside⟩

/-- The ink after a sequence of numbers. A zero and 39 take the ink away, and 38 and 2 come before
    the channels of a new one. All others have nothing to do with it. -/
def select : List Nat → Option Ink → Option Ink
  | [], ink => ink
  | 38 :: 2 :: red :: green :: blue :: rest, _ => select rest (some ⟨red, green, blue⟩)
  | n :: rest, ink => select rest (if n = 0 ∨ n = 39 then none else ink)

/-- What a terminal makes of a character. A sequence is a bracket behind the escape character,
    numbers with semicolons between, and a letter. The letter is `m` if the numbers are about
    ink. -/
def step (t : Terminal) (c : Char) : Terminal :=
  match t.state with
  | .outside =>
    if c = escape then { t with state := .begun } else { t with shown := t.shown ++ [(c, t.ink)] }
  | .begun => { t with state := if c = '[' then .inside [] 0 else .outside }
  | .inside numbers last =>
    if c.isDigit then { t with state := .inside numbers (10 * last + (c.toNat - '0'.toNat)) }
    else if c = ';' then { t with state := .inside (numbers ++ [last]) 0 }
    else
      { t with
        state := .outside
        ink := if c = 'm' then select (numbers ++ [last]) t.ink else t.ink }

/-- What a terminal makes of several characters. -/
def feed (t : Terminal) (cs : List Char) : Terminal := cs.foldl step t

variable {t : Terminal}

@[simp] theorem feed_nil : t.feed [] = t := rfl

@[simp] theorem feed_cons (c : Char) (cs : List Char) : t.feed (c :: cs) = (t.step c).feed cs := rfl

@[simp] theorem feed_append (cs ds : List Char) : t.feed (cs ++ ds) = (t.feed cs).feed ds :=
  List.foldl_append

/-- A character other than the escape character is shown in the ink that there is. -/
theorem step_of_ne_escape (ht : t.state = .outside) {c : Char} (hc : c ≠ escape) :
    t.step c = { t with shown := t.shown ++ [(c, t.ink)] } := by
  simp [step, ht, hc]

/-! ### Sequences -/

variable (shown : List (Char × Option Ink)) (ink : Option Ink)

/-- Digits go on with a number. -/
theorem feed_digits {digits : List Char} (hdigits : ∀ c ∈ digits, c.isDigit = true)
    (numbers : List Nat)
    (last : Nat) :
    feed ⟨shown, ink, .inside numbers last⟩ digits
      = ⟨shown, ink, .inside numbers (Nat.ofDigitChars 10 digits last)⟩ := by
  induction digits generalizing last with
  | nil => rfl
  | cons c rest ih =>
    have hc : c.isDigit = true := hdigits c List.mem_cons_self
    have hstep : step ⟨shown, ink, .inside numbers last⟩ c
        = ⟨shown, ink, .inside numbers (10 * last + (c.toNat - '0'.toNat))⟩ := by
      simp [step, hc]
    rw [feed_cons, hstep, ih fun d hd => hdigits d (List.mem_cons_of_mem c hd),
      Nat.ofDigitChars_cons]

/-- A number in base ten is read as this number. -/
theorem feed_decimal (numbers : List Nat) (n : Nat) :
    feed ⟨shown, ink, .inside numbers 0⟩ (decimal n).toList = ⟨shown, ink, .inside numbers n⟩ := by
  have hdigits : ∀ c ∈ Nat.toDigits 10 n, c.isDigit = true := fun c hc =>
    Nat.isDigit_of_mem_toDigits (by decide) (by decide) hc
  rw [decimal, String.toList_ofList, feed_digits shown ink hdigits, Nat.ofDigitChars_ten_toDigits]

/-- The sequence for a color changes the ink to this color, and nothing else. -/
theorem feed_setColor (color : Color) :
    feed ⟨shown, ink, .outside⟩ (Ansi.setColor color).toList
      = ⟨shown, some color.ink, .outside⟩ := by
  have hfirst : "\x1b[38;2;".toList = ['\x1b', '[', '3', '8', ';', '2', ';'] := rfl
  have hbetween : ";".toList = [';'] := rfl
  have hlast : "m".toList = ['m'] := rfl
  have hopen : feed ⟨shown, ink, .outside⟩ ['\x1b', '[', '3', '8', ';', '2', ';']
      = ⟨shown, ink, .inside [38, 2] 0⟩ := by
    simp [step, escape]
  -- Each channel is read from zero on, and the sign behind it puts it to the numbers before.
  simp only [Ansi.setColor, String.toList_append, feed_append, hfirst, hbetween, hlast, hopen,
    feed_decimal]
  simp [step, select, feed_decimal, Color.ink]

/-- The other sequence takes the ink away. -/
theorem feed_reset : feed ⟨shown, ink, .outside⟩ Ansi.reset.toList = ⟨shown, none, .outside⟩ := by
  have hreset : Ansi.reset.toList = ['\x1b', '[', '0', 'm'] := rfl
  simp [hreset, step, select, escape]

end Terminal

/-! ### What is written -/

/-- The ink for characters of a class: that of its color, or none if it has no color or is no
    class. -/
def Theme.ink (theme : Theme) (style : Option StyleClass) : Option Ink :=
  (style.bind theme.color?).map Color.ink

namespace Ansi

variable (theme : Theme) (style : Nat → Option StyleClass)

/-- A writer is in the class of the character that it has written last. -/
@[simp] theorem Writer.style_write (w : Writer) (c : Char) (s : Option StyleClass) :
    (w.write theme s c).style = s := by
  unfold Writer.write
  split
  · next h => exact h.symm
  · rfl

/-- The sequences between two characters, by their classes. -/
def between (before after : Option StyleClass) : List Char :=
  if after = before then [] else (Writer.change theme before after).toList

/-- The sequence behind the last character, by its class. -/
def ending (before : Option StyleClass) : List Char := if before.isSome then reset.toList else []

/-- What is written for characters, the first of which stands at an offset and comes after one of
    the class `before`. -/
def output : List Char → (offset : Nat) → (before : Option StyleClass) → List Char
  | [], _, before => ending before
  | c :: rest, offset, before =>
    between theme before (style offset) ++ c :: output rest (offset + c.utf8Size) (style offset)

/-- A writer only ever adds to what it has written, and what it adds depends on the class that it
    is in. -/
theorem toList_finish (cs : List Char) (offset : Nat) (w : Writer) :
    (writeChars theme style cs offset w).finish.toList
      = w.written.toList ++ output theme style cs offset w.style := by
  induction cs generalizing offset w with
  | nil =>
    by_cases h : w.style.isSome <;> simp [writeChars, output, ending, Writer.finish, h]
  | cons c rest ih =>
    rw [writeChars, ih, Writer.style_write, output]
    by_cases h : style offset = w.style <;> simp [Writer.write, between, h]

/-- The characters, each with the sequences before it. -/
def pieces : List Char → (offset : Nat) → (before : Option StyleClass) → List (List Char × Char)
  | [], _, _ => []
  | c :: rest, offset, before =>
    (between theme before (style offset), c) :: pieces rest (offset + c.utf8Size) (style offset)

/-- The class of the last character, or the class before them if there are none. -/
def lastClass : List Char → (offset : Nat) → (before : Option StyleClass) → Option StyleClass
  | [], _, before => before
  | c :: rest, offset, _ => lastClass rest (offset + c.utf8Size) (style offset)

/-- The characters of the pieces are those of the text. -/
theorem map_snd_pieces (cs : List Char) (offset : Nat) (before : Option StyleClass) :
    (pieces theme style cs offset before).map Prod.snd = cs := by
  induction cs generalizing offset before with
  | nil => rfl
  | cons c rest ih => rw [pieces, List.map_cons, ih]

/-- What is written are the pieces, and the sequence behind the last of them. -/
theorem output_eq_pieces (cs : List Char) (offset : Nat) (before : Option StyleClass) :
    output theme style cs offset before
      = (pieces theme style cs offset before).flatMap (fun p => p.1 ++ [p.2])
        ++ ending (lastClass style cs offset before) := by
  induction cs generalizing offset before with
  | nil => rfl
  | cons c rest ih => rw [output, ih, pieces, lastClass, List.flatMap_cons]; simp

/-- Characters, each with the ink for the class of its first byte. -/
def inked : List Char → (offset : Nat) → List (Char × Option Ink)
  | [], _ => []
  | c :: rest, offset => (c, theme.ink (style offset)) :: inked rest (offset + c.utf8Size)

/-- The characters are those of the text. -/
theorem map_fst_inked (cs : List Char) (offset : Nat) :
    (inked theme style cs offset).map Prod.fst = cs := by
  induction cs generalizing offset with
  | nil => rfl
  | cons c rest ih => rw [inked, List.map_cons, ih]

/-- A character comes with the ink for the class at its own offset. -/
theorem getElem?_inked (before : List Char) (c : Char) (after : List Char) (offset : Nat) :
    (inked theme style (before ++ c :: after) offset)[before.length]?
      = some (c, theme.ink (style (offset + (String.ofList before).utf8ByteSize))) := by
  induction before generalizing offset with
  | nil => rfl
  | cons d rest ih =>
    rw [utf8ByteSize_ofList_cons, ← Nat.add_assoc]
    exact ih (offset + d.utf8Size)

end Ansi

/-! ### What is shown -/

namespace Terminal

variable (theme : Theme) (style : Nat → Option StyleClass)

/-- Where the class changes the ink does so, too. -/
theorem feed_change (shown : List (Char × Option Ink)) (before after : Option StyleClass) :
    feed ⟨shown, theme.ink before, .outside⟩ (Ansi.Writer.change theme before after).toList
      = ⟨shown, theme.ink after, .outside⟩ := by
  -- A class before it may have had no color, but its ink is taken away in any case.
  have hreset : feed ⟨shown, theme.ink before, .outside⟩
    (if before.isSome then Ansi.reset else "").toList
      = ⟨shown, none, .outside⟩ := by
    cases before with
    | none => rfl
    | some s => exact feed_reset shown _
  unfold Ansi.Writer.change
  rw [String.toList_append, feed_append, hreset, Theme.ink]
  cases after.bind theme.color? with
  | none => rfl
  | some color => exact feed_setColor shown none color

/-- Between two characters the ink becomes that for the class of the second one. -/
theorem feed_between (shown : List (Char × Option Ink)) (before after : Option StyleClass) :
    feed ⟨shown, theme.ink before, .outside⟩ (Ansi.between theme before after)
      = ⟨shown, theme.ink after, .outside⟩ := by
  unfold Ansi.between
  by_cases h : after = before
  · rw [if_pos h, h, feed_nil]
  · rw [if_neg h, feed_change]

/-- Behind the last character there is no ink. -/
theorem feed_ending (shown : List (Char × Option Ink)) (before : Option StyleClass) :
    feed ⟨shown, theme.ink before, .outside⟩ (Ansi.ending before) = ⟨shown, none, .outside⟩ := by
  cases before with
  | none => rfl
  | some s => exact feed_reset shown _

/-- **Loop invariant.** Before every character the ink is that for the class of the character before
    it. So every character is shown in the ink for its own class, and there is no ink in the end. -/
theorem feed_output {cs : List Char} (hcs : escape ∉ cs) (offset : Nat)
    (before : Option StyleClass) (shown : List (Char × Option Ink)) :
    feed ⟨shown, theme.ink before, .outside⟩ (Ansi.output theme style cs offset before)
      = ⟨shown ++ Ansi.inked theme style cs offset, none, .outside⟩ := by
  induction cs generalizing offset before shown with
  | nil => rw [Ansi.output, feed_ending, Ansi.inked, List.append_nil]
  | cons c rest ih =>
    have hc : c ≠ escape := (List.ne_of_not_mem_cons hcs).symm
    have hrest : escape ∉ rest := List.not_mem_of_not_mem_cons hcs
    rw [Ansi.output, feed_append, feed_between, feed_cons, step_of_ne_escape rfl hc, ih hrest,
      Ansi.inked, List.append_assoc, List.singleton_append]

/-- The sequences up to a character, without the characters between them, lead to the ink for its
    class. This holds of every text, also where a terminal takes characters of the text for a
    sequence. -/
theorem feed_pieces (done : List Char) (c : Char) (rest : List Char) (offset : Nat)
    (before : Option StyleClass) :
    feed ⟨[], theme.ink before, .outside⟩
        (((Ansi.pieces theme style (done ++ c :: rest) offset before).take
          (done.length + 1)).flatMap
          Prod.fst)
      = ⟨[], theme.ink (style (offset + (String.ofList done).utf8ByteSize)), .outside⟩ := by
  induction done generalizing offset before with
  | nil => simp [Ansi.pieces, feed_between]
  | cons d done ih =>
    rw [List.cons_append, Ansi.pieces, List.length_cons, List.take_succ_cons, List.flatMap_cons,
      feed_append, feed_between, ih, utf8ByteSize_ofList_cons, ← Nat.add_assoc]

/-- All sequences together leave a terminal as it has been in the beginning. -/
theorem feed_pieces_ending (cs : List Char) (offset : Nat) (before : Option StyleClass) :
    feed ⟨[], theme.ink before, .outside⟩
        ((Ansi.pieces theme style cs offset before).flatMap Prod.fst
          ++ Ansi.ending (Ansi.lastClass style cs offset before))
      = ⟨[], none, .outside⟩ := by
  induction cs generalizing offset before with
  | nil => exact feed_ending theme [] before
  | cons c rest ih =>
    rw [Ansi.pieces, Ansi.lastClass, List.flatMap_cons, List.append_assoc, feed_append,
      feed_between, ih]

end Terminal

/-! ### Without sequences -/

namespace Ansi

/-- Characters without their sequences, each of which goes from an escape character up to an `m`. -/
def withoutSequences : List Char → List Char
  | [] => []
  | c :: rest =>
    if c = escape then withoutSequences ((rest.dropWhile (· != 'm')).drop 1)
    else c :: withoutSequences rest
termination_by cs => cs.length
decreasing_by
  · have := (List.dropWhile_suffix (· != 'm') (l := rest)).length_le
    simp only [List.length_drop, List.length_cons]
    omega
  · simp

/-- A sequence is taken out as a whole. -/
theorem withoutSequences_sequence {inner : List Char} (hinner : 'm' ∉ inner) (rest : List Char) :
    withoutSequences (escape :: inner ++ 'm' :: rest) = withoutSequences rest := by
  have hdrop : (inner ++ 'm' :: rest).dropWhile (· != 'm') = 'm' :: rest := by
    rw [List.dropWhile_append_of_pos, List.dropWhile_cons_of_neg]
    · simp
    · intro c hc
      simpa using fun h : c = 'm' => hinner (h ▸ hc)
  rw [List.cons_append, withoutSequences, if_pos rfl, hdrop, List.drop_one, List.tail_cons]

theorem withoutSequences_reset (rest : List Char) :
    withoutSequences (reset.toList ++ rest) = withoutSequences rest :=
  withoutSequences_sequence (show 'm' ∉ ['[', '0'] by decide) rest

/-- There are only digits in a number, and no letter. -/
theorem letter_not_mem_decimal (n : Nat) : 'm' ∉ (decimal n).toList := by
  intro h
  rw [decimal, String.toList_ofList] at h
  exact absurd (Nat.isDigit_of_mem_toDigits (by decide) (by decide) h) (by decide)

/-- A color is a sequence that leaves no text. -/
theorem withoutSequences_setColor (color : Color) (rest : List Char) :
    withoutSequences ((setColor color).toList ++ rest) = withoutSequences rest := by
  have hinner : 'm' ∉ "[38;2;".toList ++ (decimal color.red.toNat).toList ++ ";".toList
      ++ (decimal color.green.toNat).toList ++ ";".toList ++ (decimal color.blue.toNat).toList := by
    simp [letter_not_mem_decimal]
  have hsequence := withoutSequences_sequence hinner rest
  have hfirst : "\x1b[38;2;".toList = escape :: "[38;2;".toList := rfl
  have hlast : "m".toList = ['m'] := rfl
  simpa only [setColor, String.toList_append, hfirst, hlast, List.append_assoc, List.cons_append,
    List.nil_append] using hsequence

variable (theme : Theme) (style : Nat → Option StyleClass)

/-- A change of class writes sequences only. -/
theorem withoutSequences_change (before after : Option StyleClass) (rest : List Char) :
    withoutSequences ((Writer.change theme before after).toList ++ rest)
      = withoutSequences rest := by
  have hcolor : withoutSequences ((((after.bind theme.color?).map setColor).getD "").toList ++ rest)
      = withoutSequences rest := by
    cases after.bind theme.color? with
    | none => rfl
    | some color => exact withoutSequences_setColor color rest
  unfold Writer.change
  rw [String.toList_append, List.append_assoc]
  by_cases h : before.isSome
  · rw [if_pos h, withoutSequences_reset, hcolor]
  · rw [if_neg h]
    exact hcolor

/-- What stands between two characters is made of sequences only. -/
theorem withoutSequences_between (before after : Option StyleClass) (rest : List Char) :
    withoutSequences (between theme before after ++ rest) = withoutSequences rest := by
  unfold between
  by_cases h : after = before
  · rw [if_pos h, List.nil_append]
  · rw [if_neg h, withoutSequences_change]

/-- What has been put between the characters of a text is taken out again. -/
theorem withoutSequences_output {cs : List Char} (hcs : escape ∉ cs) (offset : Nat)
    (before : Option StyleClass) : withoutSequences (output theme style cs offset before) = cs := by
  induction cs generalizing offset before with
  | nil =>
    rw [output, ending]
    by_cases h : before.isSome
    · rw [if_pos h, ← List.append_nil reset.toList, withoutSequences_reset, withoutSequences]
    · rw [if_neg h, withoutSequences]
  | cons c rest ih =>
    have hc : c ≠ escape := (List.ne_of_not_mem_cons hcs).symm
    have hrest : escape ∉ rest := List.not_mem_of_not_mem_cons hcs
    rw [output, withoutSequences_between, withoutSequences, if_neg hc, ih hrest]

end Ansi

/-! ### A whole buffer -/

/-- The output for a buffer is written from its first character on, before which there is no
    class. -/
theorem StyledBuffer.toList_toAnsi (b : StyledBuffer) (theme : Theme) :
    (b.toAnsi theme).toList = Ansi.output theme b.classAt b.text.toList 0 none := by
  rw [toAnsi, Ansi.toList_finish, String.toList_empty, List.nil_append]

namespace StyledBuffer

variable (b : StyledBuffer) (theme : Theme)

/-- A terminal to which the whole output is sent, if there is no escape character in the text. -/
theorem feed_toAnsi (hplain : escape ∉ b.text.toList) :
    Terminal.blank.feed (b.toAnsi theme).toList
      = ⟨Ansi.inked theme b.classAt b.text.toList 0, none, .outside⟩ := by
  rw [toList_toAnsi]
  exact Terminal.feed_output theme b.classAt hplain 0 none []

/-- It shows a character in the ink for the class of its first byte. -/
theorem shown_toAnsi (hplain : escape ∉ b.text.toList) {before after : List Char} {c : Char}
    (htext : b.text.toList = before ++ c :: after) :
    (Terminal.blank.feed (b.toAnsi theme).toList).shown[before.length]?
      = some (c, theme.ink (b.classAt (String.ofList before).utf8ByteSize)) := by
  rw [b.feed_toAnsi theme hplain, htext, Ansi.getElem?_inked, Nat.zero_add]

end StyledBuffer

/-- **Terminal.** If there is no escape character in the text of a buffer, a terminal to which the
    output for the buffer is sent shows exactly the characters of the text. Each is shown in the
    color that the theme has for the class of its first byte, or in none if the byte has no class or
    the theme no color for it. In the end there is no color, and no sequence is left open. Without
    its sequences the output is the text. -/
theorem terminal_shows_text (b : StyledBuffer) (theme : Theme) (hplain : escape ∉ b.text.toList) :
    let screen := Terminal.blank.feed (b.toAnsi theme).toList
    screen.shown.map Prod.fst = b.text.toList ∧
      (∀ before c after, b.text.toList = before ++ c :: after →
        screen.shown[before.length]?
          = some (c, theme.ink (b.classAt (String.ofList before).utf8ByteSize))) ∧
      screen.ink = none ∧ screen.state = .outside ∧
      String.ofList (Ansi.withoutSequences (b.toAnsi theme).toList) = b.text := by
  intro screen
  have hscreen := b.feed_toAnsi theme hplain
  refine ⟨?_, fun _ _ _ htext => b.shown_toAnsi theme hplain htext, congrArg Terminal.ink hscreen,
    congrArg Terminal.state hscreen, ?_⟩
  · exact (congrArg (fun t => t.shown.map Prod.fst) hscreen).trans
      (Ansi.map_fst_inked theme b.classAt _ 0)
  · rw [b.toList_toAnsi, Ansi.withoutSequences_output theme b.classAt hplain, String.ofList_toList]

/-- A comment for which the theme has no color, between a name with a two-byte letter and a
    delimiter without a class. -/
theorem terminal_shows_text_partly_colored :
    let b := (StyledBuffer.ofText "<é!>").applyBatch
      [⟨0, 1, .delimiter⟩, ⟨1, 2, .elementName⟩, ⟨3, 1, .comment⟩]
    let theme : Theme :=
      ⟨"Tags", [(.delimiter, ⟨0, 0, 255, 255⟩), (.elementName, ⟨139, 0, 0, 255⟩)]⟩
    let screen := Terminal.blank.feed (b.toAnsi theme).toList
    escape ∉ b.text.toList ∧ b.text.toList = ['<'] ++ 'é' :: ['!', '>'] ∧
      b.text.toList = ['<', 'é'] ++ '!' :: ['>'] ∧
      screen.shown[1]? = some ('é', some ⟨139, 0, 0⟩) ∧ screen.shown[2]? = some ('!', none) ∧
      screen.ink = none ∧
      String.ofList (Ansi.withoutSequences (b.toAnsi theme).toList) = "<é!>" := by
  intro b theme screen
  have hplain : escape ∉ b.text.toList := by decide +kernel
  have hname : b.text.toList = ['<'] ++ 'é' :: ['!', '>'] := by decide +kernel
  have hcomment : b.text.toList = ['<', 'é'] ++ '!' :: ['>'] := by decide +kernel
  have hnameInk : theme.ink (b.classAt (String.ofList ['<']).utf8ByteSize) = some ⟨139, 0, 0⟩ := by
    decide +kernel
  have hcommentInk : theme.ink (b.classAt (String.ofList ['<', 'é']).utf8ByteSize) = none := by
    decide +kernel
  obtain ⟨-, hshown, hink, -, htext⟩ := terminal_shows_text b theme hplain
  have hnameShown := hshown _ _ _ hname
  have hcommentShown := hshown _ _ _ hcomment
  rw [hnameInk] at hnameShown
  rw [hcommentInk] at hcommentShown
  exact ⟨hplain, hname, hcomment, hnameShown, hcommentShown, hink, htext⟩

end XmlHighlight
