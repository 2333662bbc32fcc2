/-!
# Cursor — a place in a YAML text

* `Yaml.isBreak`, `Yaml.isWhite` — line breaks, and white space within a line;
* `Yaml.Mark`, `Yaml.Cursor` — a place, and the characters from there on;
* `Yaml.Cursor.skipWhile`, `Yaml.Cursor.atMarker` — moving on, and the lines that begin or end a
  document.
-/

namespace XmlHighlight.Yaml

/-- A character that ends a line. -/
def isBreak (c : Char) : Bool :=
  c == '\n' || c == '\r' || c == '\u0085' || c == '\u2028' || c == '\u2029'

/-- A space or a tab. -/
def isWhite (c : Char) : Bool := c == ' ' || c == '\t'

/-- A letter, a digit, a hyphen or an underscore, all of them ASCII. -/
def isWord (c : Char) : Bool := c.isAlphanum || c == '-' || c == '_'

/-- A character that a text may contain: no control characters but tab, the ends of lines, and no
    noncharacters at the end of the basic plane. -/
def isAllowed (c : Char) : Bool :=
  let n := c.val
  n == 9 || n == 10 || n == 13 || (0x20 ≤ n && n ≤ 0x7E) || n == 0x85
    || (0xA0 ≤ n && n ≤ 0xD7FF) || (0xE000 ≤ n && n ≤ 0xFFFD) || 0x10000 ≤ n

/-- What a line break stands for: a line feed, or one of the two separators as it is. -/
def breakChar (c : Char) : Char := if c == '\u2028' || c == '\u2029' then c else '\n'

/-- A place in a text, counted in characters. -/
structure Mark where
  index : Nat
  line : Nat
  column : Nat
  deriving DecidableEq, Repr

namespace Mark

/-- One character further on the same line. -/
def next (m : Mark) : Mark := ⟨m.index + 1, m.line, m.column + 1⟩

/-- At the beginning of the next line, after a line break of `n` characters. -/
def newLine (m : Mark) (n : Nat) : Mark := ⟨m.index + n, m.line + 1, 0⟩

end Mark

/-- A place in a text and the characters from there on. -/
structure Cursor where
  rest : List Char
  mark : Mark
  deriving DecidableEq, Repr

/-- Nothing but white space, a line break or the end comes at the beginning of some characters. -/
def endsWord : List Char → Bool
  | [] => true
  | c :: _ => isWhite c || isBreak c

/-- Three hyphens, or three dots, with nothing else in their line before white space. -/
def isMarker (text : List Char) : Bool :=
  ("---".toList.isPrefixOf text || "...".toList.isPrefixOf text) && endsWord (text.drop 3)

namespace Cursor

/-- The beginning of a text. -/
def start (text : List Char) : Cursor := ⟨text, ⟨0, 0, 0⟩⟩

/-- One character further on the same line. -/
def next (c : Cursor) : Cursor := ⟨c.rest.tail, c.mark.next⟩

/-- `n` characters further on the same line. -/
def skip : Nat → Cursor → Cursor
  | 0, c => c
  | n + 1, c => skip n c.next

/-- After the line break at the cursor, which may be a carriage return with a line feed. -/
def nextLine (c : Cursor) : Cursor :=
  match c.rest with
  | '\r' :: '\n' :: rest => ⟨rest, c.mark.newLine 2⟩
  | _ :: rest => ⟨rest, c.mark.newLine 1⟩
  | [] => c

/-- After the characters of one line that satisfy `p`. -/
def skipRun (p : Char → Bool) : List Char → Mark → Cursor
  | [], m => ⟨[], m⟩
  | c :: rest, m => if p c then skipRun p rest m.next else ⟨c :: rest, m⟩

/-- After the characters of one line that satisfy `p`. -/
def skipWhile (p : Char → Bool) (c : Cursor) : Cursor := skipRun p c.rest c.mark

/-- A line that begins or ends a document is at the cursor. -/
def atMarker (c : Cursor) : Bool := c.mark.column == 0 && isMarker c.rest

/-- After white space and a comment up to the end of the line; there may be nothing else. -/
def skipToLineEnd? (c : Cursor) : Option Cursor :=
  let c := c.skipWhile isWhite
  let c := if c.rest.head? == some '#' then c.skipWhile (!isBreak ·) else c
  match c.rest with
  | [] => some c
  | x :: _ => if isBreak x then some c.nextLine else none

end Cursor

/-! ### Folded lines -/

/-- White space inside a scalar that has not been added to it yet. -/
inductive Gap where
  /-- White space within a line. -/
  | inline (spaces : String)
  /-- Line breaks. The first is missing if it was escaped. -/
  | broken (first : Option Char) (more : List Char)
  deriving DecidableEq, Repr

namespace Gap

/-- No white space. -/
def none : Gap := .inline ""

/-- One more space or tab, which counts only before any line break. -/
def addWhite (g : Gap) (c : Char) : Gap :=
  match g with
  | inline spaces => .inline (spaces.push c)
  | broken first more => .broken first more

/-- One more line break; white space before it is lost. -/
def addBreak (g : Gap) (c : Char) : Gap :=
  match g with
  | inline _ => .broken (some (breakChar c)) []
  | broken first more => .broken first (more ++ [breakChar c])

/-- What the white space stands for: a single line feed is a space, and of several the first is
    lost. -/
def text : Gap → String
  | inline spaces => spaces
  | broken (some '\n') [] => " "
  | broken (some '\n') more => String.ofList more
  | broken (some c) more => String.ofList (c :: more)
  | broken .none more => String.ofList more

/-- There is a line break in it. -/
def isBroken : Gap → Bool
  | inline _ => false
  | broken _ _ => true

end Gap

end XmlHighlight.Yaml
