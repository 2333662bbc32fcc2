import XmlHighlight.LineIndex

/-!
# Styled spans — what a scan hands to the display

* `StyleClass` — the five kinds of text that a theme colours;
* `Span` — so many bytes from an offset, painted in one class;
* `Progress` — how much of the document a scan has covered, in percent.
-/

namespace XmlHighlight

/-- What a piece of a document is, as far as its colour is concerned. -/
inductive StyleClass where
  /-- `<`, `>`, `/>`, `</`, and the `=` between an attribute and its value. -/
  | delimiter
  | elementName
  | attributeName
  /-- An attribute value without its quotes. -/
  | attributeValue
  /-- The text of a comment, without its markers. -/
  | comment
  deriving DecidableEq, Repr, Inhabited

namespace StyleClass

/-- Every class, in the order in which a theme lists its colours. -/
def all : List StyleClass := [delimiter, elementName, attributeName, attributeValue, comment]

/-- The name of a class in theme files and in output. -/
def name : StyleClass → String
  | delimiter => "delimiter"
  | elementName => "element-name"
  | attributeName => "attribute-name"
  | attributeValue => "attribute-value"
  | comment => "comment"

/-- The class of a given name. -/
def ofName? (name : String) : Option StyleClass := all.find? (·.name == name)

end StyleClass

/-- Paint `length` bytes from offset `start` in the class `style`. -/
structure Span where
  start : Nat
  length : Nat
  style : StyleClass
  deriving DecidableEq, Repr, Inhabited

/-- The offset just past a span. -/
def Span.stop (s : Span) : Nat := offsetSum s.start s.length

/-! ### Progress -/

/-- A percentage. -/
structure Progress where
  percent : Nat
  percent_le : percent ≤ 100 := by omega
  deriving DecidableEq, Repr

namespace Progress

/-- Nothing has been covered yet. -/
def none : Progress := ⟨0, by omega⟩

/-- Everything has been covered. -/
def complete : Progress := ⟨100, by omega⟩

/-- The given percentage, or 100 if it is larger. -/
def ofPercent (percent : Nat) : Progress := ⟨min percent 100, by omega⟩

/-- The largest number that fits in a 64-bit word. -/
def wordMax : Nat := UInt64.size - 1

/-- The progress of a scan that has reached `line` of `total` lines. Only a finished scan is at 100,
    so this is at most 99. A hundred times the line number is cut off at the largest word. -/
def atLine (line total : Nat) : Progress :=
  if total = 0 then none else ⟨min (min (line * 100) wordMax / total) 99, by omega⟩

/-- The whole document has been covered. -/
def isComplete (p : Progress) : Bool := p.percent == 100

/-- The larger of two percentages. -/
def max (p q : Progress) : Progress := if p.percent ≤ q.percent then q else p

end Progress

end XmlHighlight
