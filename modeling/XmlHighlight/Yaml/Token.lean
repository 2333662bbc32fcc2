import XmlHighlight.Yaml.Scalar

/-!
# Tokens — the signs and scalars of a YAML text

Indentation becomes tokens of its own: a block collection begins with `blockSequence` or
`blockMapping` where a line is indented deeper than the collection around it, and ends with
`blockEnd`. A key that has no `?` in front of it is found out only at its `:`, and its `key` token
is inserted then.

* `Yaml.Token` — a token;
* `Yaml.Lexer` — a text that is being read;
* `Yaml.tokens?` — the tokens of a text, if it can be read.
-/

namespace XmlHighlight.Yaml

/-- A token of a YAML text. -/
inductive Token where
  /-- A `%YAML` line. -/
  | version (major minor : Nat)
  /-- A `%TAG` line that declares a handle. -/
  | handle (name : String)
  | documentStart
  | documentEnd
  | blockSequence
  | blockMapping
  | blockEnd
  | flowSequence
  | flowSequenceEnd
  | flowMapping
  | flowMappingEnd
  | blockEntry
  | flowEntry
  | key
  | value
  | alias (name : String)
  | anchor (name : String)
  /-- A tag, with the handle at its beginning. It is empty in a tag that is written out. -/
  | tag (handle : String)
  | scalar (text : String) (isPlain : Bool)
  deriving DecidableEq, Repr

/-- A place where a key may have begun. -/
structure KeyStart where
  /-- Only a key can stand there. -/
  required : Bool
  /-- How many tokens come before it. -/
  tokenIndex : Nat
  mark : Mark
  deriving DecidableEq, Repr

/-- A text that is being read. -/
structure Lexer where
  cursor : Cursor
  tokens : Array Token
  /-- One more than the column of the innermost block collection, and zero outside of any. -/
  margin : Nat
  /-- The margins of the collections around it. -/
  outerMargins : List Nat
  /-- Where a key may have begun at this level of brackets and braces. -/
  keyStart : Option KeyStart
  /-- The same for the levels around it. -/
  outerKeyStarts : List (Option KeyStart)
  /-- A key may begin here. -/
  keyAllowed : Bool

namespace Lexer

/-- The beginning of a text. -/
def start (text : List Char) : Lexer :=
  ⟨.start text, #[], 0, [], none, [], true⟩

/-- The cursor is inside brackets or braces. -/
def inFlow (l : Lexer) : Bool := !l.outerKeyStarts.isEmpty

/-- The column of the cursor. -/
def column (l : Lexer) : Nat := l.cursor.mark.column

/-- One more token. -/
def emit (l : Lexer) (t : Token) : Lexer := { l with tokens := l.tokens.push t }

/-- `n` characters further. -/
def skip (l : Lexer) (n : Nat) : Lexer := { l with cursor := l.cursor.skip n }

/-! ### Indentation -/

/-- The block collections that are indented by more than `column` end. There are none in
    brackets. -/
def closeMargins (margin : Nat) (limit : Nat) (tokens : Array Token) :
    List Nat → Array Token × Nat × List Nat
  | [] => (tokens, margin, [])
  | outer :: outers =>
    if limit < margin then closeMargins outer limit (tokens.push .blockEnd) outers
    else (tokens, margin, outer :: outers)

/-- The block collections with a margin above `limit` end. Brackets protect those around them. -/
def unroll (l : Lexer) (limit : Nat) : Lexer :=
  if l.inFlow then l
  else
    let (tokens, margin, outers) := closeMargins l.margin limit l.tokens l.outerMargins
    { l with tokens := tokens, margin := margin, outerMargins := outers }

/-- A block collection begins at `column`, before the token at `index`, unless one is there
    already. -/
def roll (l : Lexer) (column index : Nat) (opening : Token) : Lexer :=
  if l.inFlow || decide (column < l.margin) then l
  else
    { l with
      tokens := l.tokens.insertIdxIfInBounds index opening
      margin := column + 1
      outerMargins := l.margin :: l.outerMargins }

/-! ### Keys -/

/-- The longest distance between the beginning of a key and its `:`. -/
def maxKeyLength : Nat := 1024

/-- A key that has begun at `k` would be on another line by now, or too long. -/
def isStale (here : Mark) (k : KeyStart) : Bool :=
  decide (k.mark.line < here.line) || decide (k.mark.index + maxKeyLength < here.index)

/-- What remains of a place for a key. None but a stale one is lost, which may not be required. -/
def refresh? (here : Mark) : Option KeyStart → Option (Option KeyStart)
  | none => some none
  | some k => if isStale here k then (if k.required then none else some none) else some (some k)

/-- The places for keys that are stale are lost. -/
def dropStale? (l : Lexer) : Option Lexer := do
  let k ← refresh? l.cursor.mark l.keyStart
  let ks ← l.outerKeyStarts.mapM (refresh? l.cursor.mark)
  pure { l with keyStart := k, outerKeyStarts := ks }

/-- No key has begun at this level, which fails where one is required. -/
def dropKey? (l : Lexer) : Option Lexer :=
  match l.keyStart with
  | some k => if k.required then none else some { l with keyStart := none }
  | none => some l

/-- A key may begin at the cursor, if keys are allowed there. -/
def saveKey? (l : Lexer) : Option Lexer :=
  if l.keyAllowed then do
    let required := !l.inFlow && decide (l.margin = l.column + 1)
    let index := l.tokens.size
    let l ← l.dropKey?
    pure { l with keyStart := some ⟨required, index, l.cursor.mark⟩ }
  else some l

/-- Whether a key may begin next. -/
def allowKey (l : Lexer) (allowed : Bool) : Lexer := { l with keyAllowed := allowed }

/-! ### Signs -/

/-- `[` or `{`. -/
def openFlow? (l : Lexer) (t : Token) : Option Lexer := do
  let l ← l.saveKey?
  pure (({ l with keyStart := none, outerKeyStarts := l.keyStart :: l.outerKeyStarts }.allowKey
    true).skip 1 |>.emit t)

/-- `]` or `}`. -/
def closeFlow? (l : Lexer) (t : Token) : Option Lexer := do
  let l ← l.dropKey?
  let l :=
    match l.outerKeyStarts with
    | k :: ks => { l with keyStart := k, outerKeyStarts := ks }
    | [] => l
  pure (((l.allowKey false).skip 1).emit t)

/-- A comma in brackets or braces. -/
def flowEntry? (l : Lexer) : Option Lexer := do
  let l ← l.dropKey?
  pure (((l.allowKey true).skip 1).emit .flowEntry)

/-- A block collection may begin at the cursor with a sign of its own. -/
def rollHere? (l : Lexer) (opening : Token) : Option Lexer :=
  if l.inFlow then some l
  else if l.keyAllowed then some (l.roll l.column l.tokens.size opening)
  else none

/-- A hyphen before an entry of a block sequence. -/
def blockEntry? (l : Lexer) : Option Lexer := do
  let l ← l.rollHere? .blockSequence
  let l ← l.dropKey?
  pure (((l.allowKey true).skip 1).emit .blockEntry)

/-- A question mark before a key. -/
def explicitKey? (l : Lexer) : Option Lexer := do
  let l ← l.rollHere? .blockMapping
  let l ← l.dropKey?
  pure (((l.allowKey !l.inFlow).skip 1).emit .key)

/-- A colon before a value. A key that has begun ends here. -/
def mappingValue? (l : Lexer) : Option Lexer :=
  match l.keyStart with
  | some k =>
    -- Only now it is known that what began at `k` is a key, and maybe the first of a mapping.
    let l := { l with tokens := l.tokens.insertIdxIfInBounds k.tokenIndex .key, keyStart := none }
    let l := l.roll k.mark.column k.tokenIndex .blockMapping
    some (((l.allowKey false).skip 1).emit .value)
  | none => do
    let l ← l.rollHere? .blockMapping
    pure (((l.allowKey !l.inFlow).skip 1).emit .value)

/-! ### Names and tags -/

/-- What may follow a name besides white space. -/
def endsName (text : List Char) : Bool :=
  endsWord text ||
    match text with
    | c :: _ => c == '?' || c == ':' || c == ',' || c == ']' || c == '\x7d' || c == '%' || c == '@'
      || c == '\x60'
    | [] => true

/-- The name of an anchor after `&`, or of an alias after `*`. -/
def name? (l : Lexer) (t : String → Token) : Option Lexer := do
  let l ← l.saveKey?
  let after := l.cursor.next
  let name := after.rest.takeWhile isWord
  if name.isEmpty then none
  else
    let l := { l.allowKey false with cursor := after.skip name.length }
    if endsName l.cursor.rest then pure (l.emit (t (String.ofList name))) else none

/-- A character of a tag. -/
def isTagChar (inBrackets : Bool) (c : Char) : Bool :=
  isWord c || ";/?:@&=+$.!~*'()%".toList.contains c || inBrackets && ",[]".toList.contains c

/-- How many more bytes belong to a character whose first byte is `b`. -/
def moreBytes? (b : Nat) : Option Nat :=
  if b < 0x80 then some 0
  else if 0xC0 ≤ b ∧ b < 0xE0 then some 1
  else if 0xE0 ≤ b ∧ b < 0xF0 then some 2
  else if 0xF0 ≤ b ∧ b < 0xF8 then some 3
  else none

/-- Each percent sign begins a byte with two digits in base sixteen, and such bytes make up
    characters. So many bytes of a character are `missing` at the beginning. -/
def escapesOk : (missing : Nat) → List Char → Bool
  | missing, [] => missing == 0
  | missing, '%' :: a :: b :: rest =>
    match hexDigit? a, hexDigit? b with
    | some x, some y =>
      let byte := x * 16 + y
      match missing, moreBytes? byte with
      | 0, some more => escapesOk more rest
      | 0, none => false
      | m + 1, _ => byte / 64 == 2 && escapesOk m rest
    | _, _ => false
  | missing, c :: rest => c != '%' && missing == 0 && escapesOk 0 rest

/-- The characters of a tag from the cursor on. -/
def tagText? (inBrackets : Bool) (c : Cursor) : Option (List Char × Cursor) :=
  let text := c.rest.takeWhile (isTagChar inBrackets)
  if escapesOk 0 text then some (text, c.skip text.length) else none

/-- A handle: an exclamation mark, a word, and another exclamation mark if there is one. -/
def handle? (c : Cursor) : Option (List Char × Cursor) :=
  match c.rest with
  | '!' :: rest =>
    let word := rest.takeWhile isWord
    let handle := '!' :: word
    let after := c.skip handle.length
    match after.rest with
    | '!' :: _ => some (handle ++ ['!'], after.next)
    | _ => some (handle, after)
  | _ => none

/-- A tag, which begins with the cursor. -/
def readTag? (c : Cursor) : Option (String × Cursor) :=
  match c.rest with
  | '!' :: '<' :: _ => do
    let (text, c) ← tagText? true (c.skip 2)
    if !text.isEmpty && c.rest.head? == some '>' then some ("", c.next) else none
  | _ => do
    let (handle, c) ← handle? c
    let (text, c) ← tagText? false c
    if 1 < handle.length && handle.getLast? == some '!' then
      if text.isEmpty then none else some (String.ofList handle, c)
    else if handle.length + text.length = 1 then some ("", c)
    else some ("!", c)

/-- A tag at the cursor. -/
def tag? (l : Lexer) : Option Lexer := do
  let l ← l.saveKey?
  let (handle, c) ← readTag? l.cursor
  let l := { l.allowKey false with cursor := c }
  if endsWord c.rest || l.inFlow && c.rest.head? == some ',' then
    pure (l.emit (.tag handle))
  else none

/-! ### Lines about the document -/

/-- A number of at most nine digits. -/
def number? (c : Cursor) : Option (Nat × Cursor) :=
  let digits := c.rest.takeWhile Char.isDigit
  if digits.isEmpty || decide (9 < digits.length) then none
  else some (digits.foldl (fun n d => n * 10 + (d.toNat - 48)) 0, c.skip digits.length)

/-- What stands in a line that begins with a percent sign. -/
def directive? (c : Cursor) : Option (Token × Cursor) := do
  let name := c.rest.takeWhile isWord
  let c := c.skip name.length
  if !endsWord c.rest then none
  else
    let c := c.skipWhile isWhite
    match String.ofList name with
    | "YAML" =>
      let (major, c) ← number? c
      if c.rest.head? != some '.' then none
      else
        let (minor, c) ← number? c.next
        pure (.version major minor, c)
    | "TAG" =>
      let (handle, c) ← handle? c
      if 1 < handle.length && handle.getLast? != some '!' then none
      else
        match c.rest with
        | [] => none
        | x :: _ =>
          if isWhite x then
            let (text, c) ← tagText? true (c.skipWhile isWhite)
            if !text.isEmpty && endsWord c.rest then
              pure (.handle (String.ofList handle), c)
            else none
          else none
    | _ => none

/-- A line that begins with a percent sign. -/
def directiveLine? (l : Lexer) : Option Lexer := do
  let l ← (l.unroll 0).dropKey?
  let (t, c) ← directive? l.cursor.next
  let c ← c.skipToLineEnd?
  pure { (l.allowKey false).emit t with cursor := c }

/-- A line that begins or ends a document. -/
def marker? (l : Lexer) (t : Token) : Option Lexer := do
  let l ← (l.unroll 0).dropKey?
  pure (((l.allowKey false).skip 3).emit t)

/-! ### Scalars -/

/-- A block of lines. -/
def block? (l : Lexer) (isLiteral : Bool) : Option Lexer := do
  let l ← l.dropKey?
  let (text, c) ← readBlock isLiteral l.margin l.cursor.next
  pure { (l.allowKey true).emit (.scalar text false) with cursor := c }

/-- A scalar between quotes. -/
def quoted? (l : Lexer) (isSingle : Bool) : Option Lexer := do
  let l ← l.saveKey?
  let after := l.cursor.next
  let (text, c) ←
    if isSingle then readSingle after.rest after.mark "" .none
    else readDouble after.rest after.mark "" .none .outside
  pure { (l.allowKey false).emit (.scalar text false) with cursor := c }

/-- A plain scalar. -/
def plain? (l : Lexer) : Option Lexer := do
  let l ← l.saveKey?
  let (text, broken, c) ← readPlain l.inFlow l.margin l.cursor.rest l.cursor.mark "" .none
  pure { (l.allowKey broken).emit (.scalar text true) with cursor := c }

/-- A plain scalar may begin with `c`, which is followed by `rest`. -/
def beginsPlain (inFlow : Bool) (c : Char) (rest : List Char) : Bool :=
  match c with
  | '-' => !rest.head?.any isWhite
  | '?' | ':' => !inFlow && !endsWord rest
  | c => !isWhite c && !isBreak c && !",[]\x7b\x7d#&*!|>'\"%@\x60".toList.contains c

/-! ### One token after another -/

/-- The token that begins with `c`, which is followed by `rest`. -/
def read? (l : Lexer) (c : Char) (rest : List Char) : Option Lexer :=
  if l.column = 0 ∧ c = '%' then l.directiveLine?
  else if l.cursor.atMarker then l.marker? (if c = '-' then .documentStart else .documentEnd)
  else
    match c with
    | '[' => l.openFlow? .flowSequence
    | '\x7b' => l.openFlow? .flowMapping
    | ']' => l.closeFlow? .flowSequenceEnd
    | '\x7d' => l.closeFlow? .flowMappingEnd
    | ',' => l.flowEntry?
    | '*' => l.name? .alias
    | '&' => l.name? .anchor
    | '!' => l.tag?
    | '\'' => l.quoted? true
    | '"' => l.quoted? false
    | c =>
      if c = '-' ∧ endsWord rest then l.blockEntry?
      else if c = '?' ∧ (l.inFlow || endsWord rest) then l.explicitKey?
      else if c = ':' ∧ (l.inFlow || endsWord rest) then l.mappingValue?
      else if c = '|' ∧ !l.inFlow then l.block? true
      else if c = '>' ∧ !l.inFlow then l.block? false
      else if beginsPlain l.inFlow c rest then l.plain?
      else none

/-- White space, comments and line breaks before a token. A tab may not stand where a key may begin,
    except in brackets. The answer says, too, whether a key may begin after all of this. -/
def skipSpace (inFlow : Bool) : List Char → Mark → (inComment keyAllowed : Bool) → Cursor × Bool
  | [], m, _, keyAllowed => (⟨[], m⟩, keyAllowed)
  | '\r' :: '\n' :: rest, m, _, keyAllowed =>
    skipSpace inFlow rest (m.newLine 2) false (keyAllowed || !inFlow)
  | c :: rest, m, inComment, keyAllowed =>
    if isBreak c then skipSpace inFlow rest (m.newLine 1) false (keyAllowed || !inFlow)
    else if inComment || c == '#' then skipSpace inFlow rest m.next true keyAllowed
    else if c == ' ' || c == '\t' && (inFlow || !keyAllowed)
        || c == '\ufeff' && m.column == 0 then
      skipSpace inFlow rest m.next false keyAllowed
    else (⟨c :: rest, m⟩, keyAllowed)

/-- At the beginning of the next token. -/
def toToken (l : Lexer) : Lexer :=
  let (c, keyAllowed) := skipSpace l.inFlow l.cursor.rest l.cursor.mark false l.keyAllowed
  { l with cursor := c, keyAllowed := keyAllowed }

/-- All tokens from the cursor on, if there are fewer than `limit`. At the end of the text all block
    collections end. -/
def run? : (limit : Nat) → Lexer → Option (List Token)
  | 0, _ => none
  | limit + 1, l =>
    match l.toToken.dropStale? with
    | none => none
    | some l =>
      match l.cursor.rest with
      | [] => (l.unroll 0).dropKey?.map (·.tokens.toList)
      -- A token ends all block collections that are indented deeper than it is.
      | c :: rest => ((l.unroll (l.column + 1)).read? c rest).bind (run? limit)

end Lexer

/-- The tokens of a text. There are none if it has characters that no text may contain, or cannot be
    read. Each step but the last passes over at least one character. -/
def tokens? (text : String) : Option (List Token) :=
  let chars := text.toList
  if chars.all isAllowed then (Lexer.start chars).run? (chars.length + 1) else none

end XmlHighlight.Yaml
