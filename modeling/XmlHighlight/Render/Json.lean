import XmlHighlight.Digit
import XmlHighlight.Style.Run

/-!
# JSON output

* `Json.quote` — a text in quotes;
* `Span.listToJson` — spans on one line;
* `StyledBuffer.toJson` — the styled runs of a buffer, with their texts, one field to a line.
-/

namespace XmlHighlight

namespace Json

/-- A digit in base sixteen. -/
def hexDigit (n : Nat) : Char := Nat.digitChar n

/-- A character inside quotes. Only quotes, backslashes and control characters are not written as
    they are. -/
def escape (c : Char) : String :=
  match c with
  | '"' => "\\\""
  | '\\' => "\\\\"
  | '\x08' => "\\b"
  | '\t' => "\\t"
  | '\n' => "\\n"
  | '\x0C' => "\\f"
  | '\r' => "\\r"
  | c =>
    if c.toNat < 0x20 then
      ("\\u00".push (hexDigit (c.toNat / 16))).push (hexDigit (c.toNat % 16))
    else String.singleton c

/-- A text in quotes. -/
def quote (text : String) : String :=
  (text.toList.foldl (fun out c => out ++ escape c) "\"") ++ "\""

/-- Pieces with something between each two of them. -/
def joinWith (separator : String) : List String → String
  | [] => ""
  | first :: rest => rest.foldl (fun out piece => out ++ separator ++ piece) first

end Json

/-- A span on one line. -/
def Span.toJson (s : Span) : String :=
  "\x7b\"start\":" ++ decimal s.start ++ ",\"len\":" ++ decimal s.length
    ++ ",\"class\":" ++ Json.quote s.style.name ++ "\x7d"

/-- Spans on one line. -/
def Span.listToJson (spans : List Span) : String :=
  "[" ++ Json.joinWith "," (spans.map Span.toJson) ++ "]"

/-- A run with its text, as an element of an array. -/
def Run.toJson (r : Run) (text : String) : String :=
  "  \x7b\n    \"start\": " ++ decimal r.start ++ ",\n    \"end\": " ++ decimal r.stop
    ++ ",\n    \"class\": " ++ Json.quote r.style.name
    ++ ",\n    \"text\": " ++ Json.quote text ++ "\n  \x7d"

namespace StyledBuffer

/-- The runs of a buffer that begin and end between characters, with their texts. -/
def textRuns (b : StyledBuffer) : List (Run × String) :=
  b.runs.filterMap fun r => (b.source.slice? r.start r.stop).map (r, ·)

/-- The styled runs of a buffer. -/
def toJson (b : StyledBuffer) : String :=
  match b.textRuns with
  | [] => "[]"
  | runs => "[\n" ++ Json.joinWith ",\n" (runs.map fun (r, text) => r.toJson text) ++ "\n]"

end StyledBuffer

end XmlHighlight
