import XmlHighlight.Style.Color
import XmlHighlight.Style.Span
import XmlHighlight.Yaml.Fields

/-!
# Themes — a color for each class

* `Theme` — a name and some colors;
* `Theme.ofYaml` — the theme that a file describes;
* `Theme.builtinTexts`, `Theme.builtin` — the themes that come with the program, with their files;
* `Theme.classic` — the theme that counts if there is no other one;
* `Theme.load` — the theme of a given id.
-/

namespace XmlHighlight

/-- A name, and the colors of some classes. -/
structure Theme where
  name : String
  colors : List (StyleClass × Color)
  deriving DecidableEq, Repr

/-- Why there is no theme. -/
inductive ThemeError where
  /-- The file is no YAML text that describes a theme. -/
  | unreadable
  | badColor (style : StyleClass) (error : ColorError)
  | unknownId (id : String)
  deriving DecidableEq, Repr

/-- What the user is told. -/
def ThemeError.message : ThemeError → String
  | unreadable => "YAML parse error"
  | badColor style error => style.name ++ ": " ++ error.message
  | unknownId id => "Unknown theme id: " ++ id

namespace Theme

/-- The color of a class, if the theme has one. -/
def color? (theme : Theme) (style : StyleClass) : Option Color := theme.colors.lookup style

/-! ### Theme files -/

/-- What a theme file says, with the colors as texts. -/
structure Description where
  name : String
  colors : List (StyleClass × String)
  deriving DecidableEq, Repr

/-- The description in a YAML text. It has a version, which is a number, a name, and a color for
    every class. -/
def Description.ofYaml? (text : String) : Option Description := do
  let document ← Yaml.parse? text
  let fields ← document.fields? ["version", "name", "colors"] document.root
  let _ ← document.natural? UInt32.size (← fields.lookup "version")
  let name ← document.text? (← fields.lookup "name")
  let colorFields ←
    document.fields? (StyleClass.all.map StyleClass.name) (← fields.lookup "colors")
  let colors ← StyleClass.all.mapM fun style => do
    let text ← document.text? (← colorFields.lookup style.name)
    pure (style, text)
  pure ⟨name, colors⟩

/-- The colors of some classes, in which the first bad one counts. -/
def resolveColors : List (StyleClass × String) → Except ThemeError (List (StyleClass × Color))
  | [] => .ok []
  | (style, text) :: rest =>
    match Color.ofHex text with
    | .error e => .error (.badColor style e)
    | .ok color =>
      match resolveColors rest with
      | .error e => .error e
      | .ok colors => .ok ((style, color) :: colors)

/-- The theme that a YAML text describes. -/
def ofYaml (text : String) : Except ThemeError Theme :=
  match Description.ofYaml? text with
  | none => .error .unreadable
  | some description =>
    match resolveColors description.colors with
    | .error e => .error e
    | .ok colors => .ok ⟨description.name, colors⟩

/-! ### Builtin themes -/

/-- The file of the theme for light terminals. -/
def classicText : String :=
  "version: 1\nname: Classic\ncolors:\n" ++
    "  delimiter: \"#0000FF\"\n" ++
    "  element-name: \"#8B0000\"\n" ++
    "  attribute-name: \"#FF0000\"\n" ++
    "  attribute-value: \"#0000FF\"\n" ++
    "  comment: \"#008000\"\n"

/-- The file of the theme for dark terminals. -/
def darkText : String :=
  "version: 1\nname: Dark\ncolors:\n" ++
    "  delimiter: \"#808080\"\n" ++
    "  element-name: \"#569CD6\"\n" ++
    "  attribute-name: \"#9CDCFE\"\n" ++
    "  attribute-value: \"#CE9178\"\n" ++
    "  comment: \"#6A9955\"\n"

/-- The themes that come with the program, each with its id and its file. -/
def builtinTexts : List (String × String) := [("classic", classicText), ("dark", darkText)]

/-- The builtin theme of a given id, which has to exist. Its file is read like those of the user. -/
def builtin (id : String) : Except ThemeError Theme :=
  match builtinTexts.lookup id with
  | some text => ofYaml text
  | none => .error (.unknownId id)

/-- The theme for light terminals, which counts if there is no other one. If its file could not be
    read, there would be no colors. -/
def classic : Theme :=
  match ofYaml classicText with
  | .ok theme => theme
  | .error _ => ⟨"Classic", []⟩

/-- The theme for light terminals, as its file has it. -/
theorem toOption_ofYaml_classicText : (ofYaml classicText).toOption = some ⟨"Classic",
    [(.delimiter, ⟨0x00, 0x00, 0xFF, 0xFF⟩), (.elementName, ⟨0x8B, 0x00, 0x00, 0xFF⟩),
      (.attributeName, ⟨0xFF, 0x00, 0x00, 0xFF⟩), (.attributeValue, ⟨0x00, 0x00, 0xFF, 0xFF⟩),
      (.comment, ⟨0x00, 0x80, 0x00, 0xFF⟩)]⟩ := by
  decide +kernel

/-- The theme for dark terminals, as its file has it. -/
theorem toOption_ofYaml_darkText : (ofYaml darkText).toOption = some ⟨"Dark",
    [(.delimiter, ⟨0x80, 0x80, 0x80, 0xFF⟩), (.elementName, ⟨0x56, 0x9C, 0xD6, 0xFF⟩),
      (.attributeName, ⟨0x9C, 0xDC, 0xFE, 0xFF⟩), (.attributeValue, ⟨0xCE, 0x91, 0x78, 0xFF⟩),
      (.comment, ⟨0x6A, 0x99, 0x55, 0xFF⟩)]⟩ := by
  decide +kernel

/-- Every theme that comes with the program can be read, and has a color for every class. -/
theorem exists_ofYaml_of_mem_builtinTexts :
    ∀ entry ∈ builtinTexts, ∃ theme, ofYaml entry.2 = .ok theme ∧
      ∀ style, (theme.color? style).isSome = true := by
  have hread {text : String} {theme : Theme} (h : (ofYaml text).toOption = some theme) :
      ofYaml text = .ok theme := by
    cases hresult : ofYaml text with
    | error e =>
      rw [hresult] at h
      cases h
    | ok t =>
      rw [hresult] at h
      exact congrArg Except.ok (Option.some.inj h)
  intro entry hentry
  rcases List.mem_cons.mp hentry with rfl | hentry
  · refine ⟨_, hread toOption_ofYaml_classicText, fun style => ?_⟩
    cases style <;> rfl
  · obtain rfl := List.mem_singleton.mp hentry
    refine ⟨_, hread toOption_ofYaml_darkText, fun style => ?_⟩
    cases style <;> rfl

/-- The theme of a given id. What the user's file of that id says counts, if there is such a file,
    even if it describes no theme. -/
def load (id : String) (userFile : Option String) : Except ThemeError Theme :=
  match userFile with
  | some text => ofYaml text
  | none => builtin id

end Theme

end XmlHighlight
