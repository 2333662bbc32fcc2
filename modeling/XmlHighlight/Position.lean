import XmlHighlight.Source

/-!
# Positions — lines and columns of a source

* `TextPos` — a line and a column, both counted from one;
* `Source.rowColumn` — the place of an offset as messages show it, its column counted in characters;
* `LineCursor` — turns offsets into positions, its column counted in bytes, by walking forward from
  the offset asked for last.
-/

namespace XmlHighlight

/-- A line and a column, both counted from one. -/
structure TextPos where
  line : Nat
  column : Nat
  deriving DecidableEq, Repr, Inhabited

/-- The byte that ends a line. -/
def newline : UInt8 := 10

/-- A byte that continues a character begun by an earlier byte. -/
def isContinuation (b : UInt8) : Bool := b &&& 0xC0 == 0x80

/-- Row and column of offset `i`: the row counts newlines before it, the column counts the
    characters since the last of them. -/
def Source.rowColumn (s : Source) (i : Nat) : TextPos :=
  i.fold (fun k _ pos =>
    match s.byte? k with
    | none => pos
    | some b =>
      if b == newline then ⟨pos.line + 1, 1⟩
      else if isContinuation b then pos
      else ⟨pos.line, pos.column + 1⟩) ⟨1, 1⟩

/-! ### A cursor that moves forward -/

/-- An offset together with its line and column, the column counted in bytes. -/
structure LineCursor where
  offset : Nat
  line : Nat
  column : Nat
  deriving DecidableEq, Repr

namespace LineCursor

/-- The beginning of every source. -/
def origin : LineCursor := ⟨0, 1, 1⟩

/-- Its line and column. -/
def pos (c : LineCursor) : TextPos := ⟨c.line, c.column⟩

/-- One byte further. -/
def step (s : Source) (c : LineCursor) : LineCursor :=
  if s.byte? c.offset == some newline then ⟨c.offset + 1, c.line + 1, 1⟩
  else ⟨c.offset + 1, c.line, c.column + 1⟩

/-- `n` bytes further. -/
def steps (s : Source) : Nat → LineCursor → LineCursor
  | 0, c => c
  | n + 1, c => steps s n (c.step s)

/-- Moves to an offset, or to the end of the source if the offset lies beyond it. Going back starts
    again from the beginning. -/
def moveTo (s : Source) (c : LineCursor) (offset : Nat) : LineCursor :=
  let start := if offset < c.offset then origin else c
  start.steps s (min offset s.size - start.offset)

end LineCursor

end XmlHighlight
