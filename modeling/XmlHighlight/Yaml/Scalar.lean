import XmlHighlight.Digit
import XmlHighlight.Yaml.Cursor

/-!
# Scalars — the ways to write a text

A scalar is plain, or stands between quotes, or is a block of lines. Each reader goes through the
text one character at a time.

* `Yaml.readPlain` — a plain scalar;
* `Yaml.readSingle`, `Yaml.readDouble` — a scalar between quotes;
* `Yaml.readBlock` — a block of lines.
-/

namespace XmlHighlight.Yaml

/-! ### Plain -/

/-- A character that ends a plain scalar inside brackets or braces. -/
def isFlowIndicator (c : Char) : Bool :=
  c == ',' || c == '[' || c == ']' || c == '\x7b' || c == '\x7d'

/-- A plain scalar whose beginning `text`, followed by `gap`, has been read. Outside of brackets its
    lines have to be indented by `margin` columns. The answer is the scalar, whether line breaks
    follow it, and the place after those. -/
def readPlain (inFlow : Bool) (margin : Nat) :
    List Char → Mark → String → Gap → Option (String × Bool × Cursor)
  | [], m, text, gap => some (text, gap.isBroken, ⟨[], m⟩)
  | '\r' :: '\n' :: rest, m, text, gap =>
    readPlain inFlow margin rest (m.newLine 2) text (gap.addBreak '\n')
  | c :: rest, m, text, gap =>
    if isWhite c then
      if c == '\t' && gap.isBroken && decide (m.column < margin) then none
      else readPlain inFlow margin rest m.next text (gap.addWhite c)
    else if isBreak c then readPlain inFlow margin rest (m.newLine 1) text (gap.addBreak c)
    -- A line that is not indented enough, a comment or a marker ends the scalar only after a gap.
    else if gap != .none && (!inFlow && decide (m.column < margin) || c == '#'
        || m.column == 0 && isMarker (c :: rest)) then
      some (text, gap.isBroken, ⟨c :: rest, m⟩)
    -- Between brackets a colon may not stand right before another sign.
    else if inFlow && c == ':' && rest.head?.any (fun d => isFlowIndicator d || d == '?') then none
    else if c == ':' && endsWord rest || inFlow && isFlowIndicator c then
      some (text, gap.isBroken, ⟨c :: rest, m⟩)
    else readPlain inFlow margin rest m.next ((text ++ gap.text).push c) .none

/-! ### Between single quotes -/

/-- A scalar between single quotes, in which a quote is written twice, from after the opening quote
    on, its beginning `text` and then `gap` having been read. -/
def readSingle : List Char → Mark → String → Gap → Option (String × Cursor)
  | [], _, _, _ => none
  | '\'' :: '\'' :: rest, m, text, gap =>
    readSingle rest m.next.next ((text ++ gap.text).push '\'') .none
  | '\'' :: rest, m, text, gap => some (text ++ gap.text, ⟨rest, m.next⟩)
  | '\r' :: '\n' :: rest, m, text, gap => readSingle rest (m.newLine 2) text (gap.addBreak '\n')
  | c :: rest, m, text, gap =>
    if isWhite c then readSingle rest m.next text (gap.addWhite c)
    else if isBreak c then readSingle rest (m.newLine 1) text (gap.addBreak c)
    else if m.column == 0 && isMarker (c :: rest) then none
    else readSingle rest m.next ((text ++ gap.text).push c) .none

/-! ### Between double quotes -/

/-- What a backslash and a character stand for. -/
def simpleEscape? (c : Char) : Option Char :=
  match c with
  | '0' => some '\x00'
  | 'a' => some '\x07'
  | 'b' => some '\x08'
  | 't' => some '\t'
  | '\t' => some '\t'
  | 'n' => some '\n'
  | 'v' => some '\x0B'
  | 'f' => some '\x0C'
  | 'r' => some '\r'
  | 'e' => some '\x1B'
  | ' ' => some ' '
  | '"' => some '"'
  | '/' => some '/'
  | '\\' => some '\\'
  | 'N' => some '\u0085'
  | '_' => some '\u00A0'
  | 'L' => some '\u2028'
  | 'P' => some '\u2029'
  | _ => none

/-- How many digits in base sixteen follow a backslash and a letter. -/
def escapeDigits? (c : Char) : Option Nat :=
  match c with
  | 'x' => some 2
  | 'u' => some 4
  | 'U' => some 8
  | _ => none

/-- Where a reader is with respect to escapes. -/
inductive EscapeState where
  /-- Not in an escape. -/
  | outside
  /-- After a backslash. -/
  | begun
  /-- In a number of which so many digits are missing. -/
  | number (missing value : Nat)
  deriving DecidableEq, Repr

/-- A scalar between double quotes, in which a backslash begins an escape, from after the opening
    quote on, its beginning `text` and then `gap` having been read. -/
def readDouble : List Char → Mark → String → Gap → EscapeState → Option (String × Cursor)
  | [], _, _, _, _ => none
  | '\r' :: '\n' :: rest, m, text, gap, escape =>
    match escape with
    | .outside => readDouble rest (m.newLine 2) text (gap.addBreak '\n') .outside
    | .begun => readDouble rest (m.newLine 2) text (.broken none []) .outside
    | .number _ _ => none
  | c :: rest, m, text, gap, .outside =>
    if c == '"' then some (text ++ gap.text, ⟨rest, m.next⟩)
    else if c == '\\' then readDouble rest m.next (text ++ gap.text) .none .begun
    else if isWhite c then readDouble rest m.next text (gap.addWhite c) .outside
    else if isBreak c then readDouble rest (m.newLine 1) text (gap.addBreak c) .outside
    else if m.column == 0 && isMarker (c :: rest) then none
    else readDouble rest m.next ((text ++ gap.text).push c) .none .outside
  | c :: rest, m, text, _, .begun =>
    if isBreak c then readDouble rest (m.newLine 1) text (.broken none []) .outside
    else
      match simpleEscape? c, escapeDigits? c with
      | some d, _ => readDouble rest m.next (text.push d) .none .outside
      | none, some digits => readDouble rest m.next text .none (.number digits 0)
      | none, none => none
  | c :: rest, m, text, gap, .number missing value =>
    match hexDigit? c with
    | none => none
    | some d =>
      let value := value * 16 + d
      if 1 < missing then readDouble rest m.next text gap (.number (missing - 1) value)
      else if value.isValidChar then
        readDouble rest m.next (text.push (Char.ofNat value)) .none .outside
      else none

/-! ### Blocks of lines -/

/-- What becomes of the line breaks at the end of a block. -/
inductive Chomping where
  | strip
  | clip
  | keep
  deriving DecidableEq, Repr

/-- How a block is to be read. -/
structure BlockStyle where
  /-- The lines are kept apart; otherwise they are folded like those of other scalars. -/
  isLiteral : Bool
  chomping : Chomping
  /-- How much deeper than the text around it the block is indented, if that is told. -/
  increment : Option Nat
  deriving DecidableEq, Repr

/-- What follows the sign that begins a block: whether and how its end is chomped, and its
    indentation, in either order. -/
def readBlockStyle? (isLiteral : Bool) (c : Cursor) : Option (BlockStyle × Cursor) :=
  let chomping? (c : Cursor) : Option Chomping :=
    match c.rest with
    | '+' :: _ => some .keep
    | '-' :: _ => some .strip
    | _ => none
  let digit? (c : Cursor) : Option Nat :=
    match c.rest with
    | d :: _ => if d.isDigit then some (d.toNat - 48) else none
    | [] => none
  match chomping? c with
  | some chomping =>
    match digit? c.next with
    | some n => if n = 0 then none else some (⟨isLiteral, chomping, some n⟩, c.next.next)
    | none => some (⟨isLiteral, chomping, none⟩, c.next)
  | none =>
    match digit? c with
    | some n =>
      if n = 0 then none
      else
        match chomping? c.next with
        | some chomping => some (⟨isLiteral, chomping, some n⟩, c.next.next)
        | none => some (⟨isLiteral, .clip, some n⟩, c.next)
    | none => some (⟨isLiteral, .clip, none⟩, c)

/-- The empty lines at the beginning of a block whose indentation is not told: the deepest
    indentation among them and the line after them, their line breaks, and the place after. -/
def readEmptyLines : List Char → Mark → (deepest : Nat) → List Char →
    Option (Nat × List Char × Cursor)
  | [], m, deepest, breaks => some (max deepest m.column, breaks, ⟨[], m⟩)
  | '\r' :: '\n' :: rest, m, deepest, breaks =>
    readEmptyLines rest (m.newLine 2) (max deepest m.column) (breaks ++ ['\n'])
  | c :: rest, m, deepest, breaks =>
    if c == ' ' then readEmptyLines rest m.next deepest breaks
    else if c == '\t' then none
    else if isBreak c then
      readEmptyLines rest (m.newLine 1) (max deepest m.column) (breaks ++ [breakChar c])
    else some (max deepest m.column, breaks, ⟨c :: rest, m⟩)

/-- A block as far as it has been read. -/
structure PartialBlock where
  text : String
  /-- The break at the end of the last line. -/
  lineEnd : Option Char
  /-- The breaks of the empty lines after it. -/
  emptyLines : List Char
  /-- The last line begins with white space. -/
  whiteLine : Bool
  deriving DecidableEq

namespace PartialBlock

/-- The text before a line that begins with `c`. A line feed between two lines that do not begin
    with white space is folded, unless the block is literal. -/
def joined (b : PartialBlock) (style : BlockStyle) (c : Char) : String :=
  let lineEnd :=
    if !style.isLiteral && b.lineEnd == some '\n' && !b.whiteLine && !isWhite c then
      if b.emptyLines.isEmpty then " " else ""
    else String.ofList b.lineEnd.toList
  b.text ++ lineEnd ++ String.ofList b.emptyLines

/-- The whole text of a block. -/
def finish (b : PartialBlock) (style : BlockStyle) : String :=
  match style.chomping with
  | .strip => b.text
  | .clip => b.text ++ String.ofList b.lineEnd.toList
  | .keep => b.text ++ String.ofList b.lineEnd.toList ++ String.ofList b.emptyLines

end PartialBlock

/-- The lines of a block that is indented by `indent` columns. The reader is inside a line or in the
    white space before one. -/
def readLines (style : BlockStyle) (indent : Nat) :
    List Char → Mark → (inLine : Bool) → PartialBlock → Option (String × Cursor)
  | [], m, _, b => some (b.finish style, ⟨[], m⟩)
  | '\r' :: '\n' :: rest, m, inLine, b =>
    if inLine then readLines style indent rest (m.newLine 2) false { b with lineEnd := some '\n' }
    else
      readLines style indent rest (m.newLine 2) false
        { b with emptyLines := b.emptyLines ++ ['\n'] }
  | c :: rest, m, inLine, b =>
    if inLine then
      if isBreak c then
        readLines style indent rest (m.newLine 1) false { b with lineEnd := some (breakChar c) }
      else readLines style indent rest m.next true { b with text := b.text.push c }
    else if decide (m.column < indent) && c == ' ' then readLines style indent rest m.next false b
    else if decide (m.column < indent) && c == '\t' then none
    else if isBreak c then
      readLines style indent rest (m.newLine 1) false
        { b with emptyLines := b.emptyLines ++ [breakChar c] }
    else if m.column = indent then
      readLines style indent rest m.next true ⟨(b.joined style c).push c, none, [], isWhite c⟩
    else some (b.finish style, ⟨c :: rest, m⟩)

/-- A block, from after the sign that begins it. Its lines are indented deeper than the text around
    it, which has to be indented by `margin - 1` columns. -/
def readBlock (isLiteral : Bool) (margin : Nat) (c : Cursor) : Option (String × Cursor) := do
  let (style, c) ← readBlockStyle? isLiteral c
  let c ← c.skipToLineEnd?
  match style.increment with
  | some n => readLines style (margin - 1 + n) c.rest c.mark false ⟨"", none, [], false⟩
  | none =>
    let (deepest, breaks, c) ← readEmptyLines c.rest c.mark 0 []
    let indent := max (max deepest margin) 1
    readLines style indent c.rest c.mark false ⟨"", none, breaks, false⟩

end XmlHighlight.Yaml
