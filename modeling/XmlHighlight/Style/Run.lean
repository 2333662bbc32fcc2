import XmlHighlight.Style.Buffer

/-!
# Styled runs — styling as a list of ranges

* `Run` — a range of bytes of one class;
* `StyledBuffer.runs` — the longest such ranges of a buffer, in order.
-/

namespace XmlHighlight

/-- Bytes from `start` up to `stop` that have one class. -/
structure Run where
  start : Nat
  stop : Nat
  style : StyleClass
  deriving DecidableEq, Repr

/-- Runs found so far, latest first, and the offset reached. -/
structure RunScan where
  runs : List Run
  offset : Nat

/-- Takes the class of the next byte into account: it makes the last run longer or begins
    another. -/
def RunScan.step (r : RunScan) (style : Option StyleClass) : RunScan :=
  match style with
  | none => ⟨r.runs, r.offset + 1⟩
  | some style =>
    match r.runs with
    | ⟨start, stop, last⟩ :: earlier =>
      if stop = r.offset ∧ last = style then ⟨⟨start, r.offset + 1, last⟩ :: earlier, r.offset + 1⟩
      else ⟨⟨r.offset, r.offset + 1, style⟩ :: r.runs, r.offset + 1⟩
    | [] => ⟨[⟨r.offset, r.offset + 1, style⟩], r.offset + 1⟩

/-- The runs of some classes. -/
def runsOf (classes : Array (Option StyleClass)) : List Run :=
  (classes.foldl RunScan.step ⟨[], 0⟩).runs.reverse

/-- The longest ranges of equally styled bytes, in order. -/
def StyledBuffer.runs (b : StyledBuffer) : List Run := runsOf b.classes

end XmlHighlight
