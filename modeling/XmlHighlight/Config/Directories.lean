import XmlHighlight.File.Path

/-!
# Directories — where the settings are kept

* `Directories.ofEnvironment` — the user's directory for this program;
* `Directories.configFile`, `Directories.themes`, `Directories.themeFile`, `Directories.logs`.
-/

namespace XmlHighlight

/-- The user's directory for this program. -/
structure Directories where
  config : String
  deriving DecidableEq, Repr

namespace Directories

/-- The directory is inside the one that the user has chosen for settings, even if that has an empty
    name, or else inside a hidden one in the user's home. -/
def ofEnvironment (configHome : Option String) (home : String) : Directories :=
  ⟨Path.join (configHome.getD (Path.join home ".config")) "xmlcolor"⟩

/-- The user's themes. -/
def themes (d : Directories) : String := Path.join d.config "themes"

/-- The file of the theme of a given id. -/
def themeFile (d : Directories) (id : String) : String := Path.join d.themes (id ++ ".yaml")

/-- The settings. -/
def configFile (d : Directories) : String := Path.join d.config "config.yaml"

/-- The logs. -/
def logs (d : Directories) : String := Path.join d.config "logs"

end Directories

end XmlHighlight
