import XmlHighlight.Yaml.Node
import XmlHighlight.Yaml.Number

/-!
# Fields — values taken out of a YAML document

* `Yaml.Document.text?` — the text of any scalar;
* `Yaml.Document.natural?` — a whole number, which has to be plain;
* `Yaml.Document.fields?` — those entries of a mapping that have certain names.
-/

namespace XmlHighlight.Yaml.Document

/-- The text of a scalar, whatever it reads as. -/
def text? (d : Document) (node : Node) : Option String :=
  match d.resolve node with
  | some (.scalar text _) => some text
  | _ => none

/-- The number below `limit` that a plain scalar stands for. -/
def natural? (d : Document) (limit : Nat) (node : Node) : Option Nat :=
  match d.resolve node with
  | some (.scalar text true) => unsigned? limit text.toList
  | _ => none

/-- The entries of a mapping whose keys are among `names`, none of which may occur twice. All keys
    have to be scalars. -/
def fields? (d : Document) (names : List String) (node : Node) : Option (List (String × Node)) :=
  match d.resolve node with
  | some (.mapping entries) => do
    let fields ← entries.mapM fun (key, value) => (d.text? key).map (·, value)
    let known := fields.filter (names.contains ·.1)
    if (known.map Prod.fst).Nodup then some known else none
  | _ => none

end XmlHighlight.Yaml.Document
