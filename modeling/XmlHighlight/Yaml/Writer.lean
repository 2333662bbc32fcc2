import XmlHighlight.Yaml.Number

/-!
# Writer — a text as a scalar

The value of an entry at the beginning of its line is written in the plainest style that keeps it. A
text with a line feed is a block of lines, a text that would read as something else stands between
single quotes, and one with characters that cannot be shown stands between double quotes.

* `Yaml.Traits` — what matters about a text;
* `Yaml.Style`, `Yaml.styleOf` — the style that it is written in;
* `Yaml.writeScalar` — the scalar.
-/

namespace XmlHighlight.Yaml

/-! ### Styles -/

/-- A character that can be shown as it is, or a line feed. -/
def isPrintable (c : Char) : Bool :=
  let n := c.val
  n == 10 || (0x20 ≤ n && n ≤ 0x7E) || (0xA0 ≤ n && n ≤ 0xD7FF)
    || (0xE000 ≤ n && n ≤ 0xFFFD && n != 0xFEFF) || 0x10000 ≤ n

/-- A text between two characters that satisfy `p` and `q` somewhere. -/
def hasPair (p q : Char → Bool) : List Char → Bool
  | a :: b :: rest => p a && q b || hasPair p q (b :: rest)
  | _ => false

/-- A sign that cannot stand at the beginning of a plain scalar. -/
def isIndicator (c : Char) : Bool := ",[]\x7b\x7d#&*!|>'\"%@\x60".toList.contains c

/-- A text that would be taken for something else at its beginning. -/
def startsAsSign : List Char → Bool
  | [] => false
  | c :: rest =>
    isIndicator c || ((c == '?' || c == ':' || c == '-') && endsWord rest)
      || "---".toList.isPrefixOf (c :: rest) || "...".toList.isPrefixOf (c :: rest)

/-- A colon at the end of a word, or a hash sign at the beginning of one. -/
def hasInnerSign (text : List Char) : Bool :=
  hasPair (· == ':') (fun c => isWhite c || isBreak c) text || text.getLast? == some ':'
    || hasPair (fun c => isWhite c || isBreak c) (· == '#') text

/-- What matters about a text for the style that it is written in. -/
structure Traits where
  /-- There are characters that cannot be shown. -/
  unprintable : Bool
  hasBreak : Bool
  /-- A space stands before a line break. -/
  spaceBreak : Bool
  /-- A space stands after a line break. -/
  breakSpace : Bool
  /-- It begins or ends with a space or a line break. -/
  openEnded : Bool
  trailingSpace : Bool
  /-- It has signs in it that end a plain scalar or begin something else. -/
  hasSign : Bool
  deriving DecidableEq, Repr

/-- The traits of a text. -/
def traitsOf (text : List Char) : Traits where
  unprintable := text.any (!isPrintable ·)
  hasBreak := text.any isBreak
  spaceBreak := hasPair (· == ' ') isBreak text
  breakSpace := hasPair isBreak (· == ' ') text
  openEnded := text.head?.any (fun c => c == ' ' || isBreak c)
    || text.getLast?.any (fun c => c == ' ' || isBreak c)
  trailingSpace := text.getLast? == some ' '
  hasSign := startsAsSign text || hasInnerSign text

/-- The way in which a scalar is written. -/
inductive Style where
  | plain
  | single
  | double
  | literal
  deriving DecidableEq, Repr

namespace Traits

/-- A plain scalar keeps the text. -/
def allowsPlain (t : Traits) : Bool := !t.unprintable && !t.hasBreak && !t.openEnded && !t.hasSign

/-- Single quotes keep the text. -/
def allowsSingle (t : Traits) : Bool := !t.unprintable && !t.spaceBreak && !t.breakSpace

/-- A block of lines keeps the text. -/
def allowsLiteral (t : Traits) : Bool := !t.unprintable && !t.spaceBreak && !t.trailingSpace

end Traits

/-- The style that a text is written in. -/
def styleOf (text : String) : Style :=
  let t := traitsOf text.toList
  if text.toList.contains '\n' then (if t.allowsLiteral then .literal else .double)
  else if !isTyped text && t.allowsPlain then .plain
  else if t.allowsSingle then .single
  else .double

/-! ### Characters -/

/-- The letter that stands for a character after a backslash, if it has one. -/
def escapeLetter? (c : Char) : Option Char :=
  match c with
  | '\x00' => some '0'
  | '\x07' => some 'a'
  | '\x08' => some 'b'
  | '\t' => some 't'
  | '\n' => some 'n'
  | '\x0B' => some 'v'
  | '\x0C' => some 'f'
  | '\r' => some 'r'
  | '\x1B' => some 'e'
  | '"' => some '"'
  | '\\' => some '\\'
  | '\u0085' => some 'N'
  | '\u00A0' => some '_'
  | '\u2028' => some 'L'
  | '\u2029' => some 'P'
  | _ => none

/-- A digit in base sixteen. -/
def upperHexDigit (n : Nat) : Char := if n < 10 then Char.ofNat (48 + n) else Char.ofNat (55 + n)

/-- The last `width` digits of a number in base sixteen. -/
def upperHex : (width : Nat) → Nat → List Char
  | 0, _ => []
  | width + 1, n => upperHex width (n / 16) ++ [upperHexDigit (n % 16)]

/-- A character between double quotes. -/
def writeEscaped (c : Char) : List Char :=
  if isPrintable c && !isBreak c && c != '"' && c != '\\' then [c]
  else
    match escapeLetter? c with
    | some e => ['\\', e]
    | none =>
      let n := c.toNat
      if n ≤ 0xFF then '\\' :: 'x' :: upperHex 2 n
      else if n ≤ 0xFFFF then '\\' :: 'u' :: upperHex 4 n
      else '\\' :: 'U' :: upperHex 8 n

/-- The spaces in front of a line that continues a scalar. -/
def margin : List Char := [' ', ' ']

/-- The characters between single quotes. Lines begin with the margin, unless they are empty. -/
def writeSingle : List Char → (atLineStart : Bool) → List Char
  | [], atLineStart => if atLineStart then margin else []
  | c :: rest, atLineStart =>
    if isBreak c then c :: writeSingle rest true
    else
      (if atLineStart then margin else []) ++ (if c == '\'' then [c, c] else [c])
        ++ writeSingle rest false

/-- The lines of a block. Each begins with the margin, unless it is empty. -/
def writeLines : List Char → (atLineStart : Bool) → List Char
  | [], _ => []
  | c :: rest, atLineStart =>
    if isBreak c then c :: writeLines rest true
    else (if atLineStart then margin else []) ++ c :: writeLines rest false

/-- The sign for what is to become of the line breaks at the end of a block. -/
def chompingSign (text : List Char) : List Char :=
  match text.reverse with
  | a :: rest =>
    if isBreak a then (if rest.head?.all isBreak then ['+'] else []) else ['-']
  | [] => ['-']

/-- The indentation is told where the first line does not show it. -/
def indentSign (text : List Char) : List Char :=
  if text.head?.any (fun c => c == ' ' || isBreak c) then ['2'] else []

/-! ### Scalars -/

/-- A text as the value of an entry at the beginning of its line, with the end of the line. -/
def writeScalar (text : String) : String :=
  let cs := text.toList
  match styleOf text with
  | .plain => String.ofList (cs ++ ['\n'])
  | .single => String.ofList ('\'' :: writeSingle cs false ++ ['\'', '\n'])
  | .double => String.ofList ('"' :: cs.flatMap writeEscaped ++ ['"', '\n'])
  | .literal =>
    let ending := if cs.getLast?.any isBreak then [] else ['\n']
    String.ofList ('|' :: indentSign cs ++ chompingSign cs ++ '\n' :: writeLines cs true ++ ending)

end XmlHighlight.Yaml
