import XmlHighlight.Config.Basic
import XmlHighlight.File.Writing

/-!
# Saving — the settings in a file

* `Config.save` — the files after the settings have been saved.
-/

namespace XmlHighlight.Config

/-- The settings are written to a file, below directories that are made if they are missing. The
    answer is the files afterwards, or else what the user is told. -/
def save (c : Config) (t : FileTree) (path : String) : Except String FileTree := do
  let t ← (t.makeParents path).mapError fun e => "Failed to create config directory: " ++ e.message
  (t.write path c.toYaml.toUTF8).mapError fun e =>
    "Failed to write config to " ++ path ++ ": " ++ e.message

end XmlHighlight.Config
