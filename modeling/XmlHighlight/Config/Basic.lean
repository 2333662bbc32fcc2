import XmlHighlight.Digit
import XmlHighlight.File.System
import XmlHighlight.Scan.Settings
import XmlHighlight.Yaml.Fields
import XmlHighlight.Yaml.Writer

/-!
# Configuration — the user's settings

* `Config` — the settings, with their defaults;
* `Config.ofYaml?`, `Config.toYaml` — the settings as a YAML text;
* `Config.load` — the settings in a file, or the defaults;
* `Config.highlighting` — what the settings mean for highlighting.
-/

namespace XmlHighlight

/-- The user's settings. The numbers fit in 64-bit words. -/
structure Config where
  theme : String := "classic"
  /-- How many milliseconds have to pass without an edit before highlighting begins. -/
  quietMs : Nat := 650
  pollInterval : Nat := 8
  flushesPerDocument : Nat := 48
  minReportingInterval : Nat := 4
  deriving DecidableEq, Repr

/-- How a document is to be highlighted. -/
structure Highlighting where
  quietMs : Nat
  scan : Settings
  deriving DecidableEq, Repr

namespace Config

/-! ### Settings as a text -/

/-- The names of the settings, in the order in which they are written. -/
def fieldNames : List String :=
  ["theme", "quiet_period_ms", "poll_interval", "flushes_per_document", "min_reporting_interval"]

/-- The settings in a YAML text. Those that are missing have their defaults. -/
def ofYaml? (text : String) : Option Config := do
  let document ← Yaml.parse? text
  let fields ← document.fields? fieldNames document.root
  let number (name : String) (default : Nat) : Option Nat :=
    match fields.lookup name with
    | some node => document.natural? UInt64.size node
    | none => some default
  let default : Config := {}
  let theme ←
    match fields.lookup "theme" with
    | some node => document.text? node
    | none => some default.theme
  let quietMs ← number "quiet_period_ms" default.quietMs
  let pollInterval ← number "poll_interval" default.pollInterval
  let flushesPerDocument ← number "flushes_per_document" default.flushesPerDocument
  let minReportingInterval ← number "min_reporting_interval" default.minReportingInterval
  pure { theme, quietMs, pollInterval, flushesPerDocument, minReportingInterval }

/-- The settings as a YAML text, one to a line. -/
def toYaml (c : Config) : String :=
  let line (name : String) (n : Nat) : String := name ++ ": " ++ decimal n ++ "\n"
  "theme: " ++ Yaml.writeScalar c.theme
    ++ line "quiet_period_ms" c.quietMs
    ++ line "poll_interval" c.pollInterval
    ++ line "flushes_per_document" c.flushesPerDocument
    ++ line "min_reporting_interval" c.minReportingInterval

/-- The settings in a file. If anything is wrong with it, all of them have their defaults. -/
def load (found : Lookup) : Config :=
  match found.text with
  | .ok text => (ofYaml? text).getD {}
  | .error _ => {}

/-! ### What they mean -/

/-- A number that is not zero, or else a default. -/
def orDefault (n default : Nat) : Nat := if n = 0 then default else n

/-- How documents are to be highlighted. Zeros, but for the time to wait, stand for the defaults. -/
def highlighting (c : Config) : Highlighting :=
  let default : Config := {}
  { quietMs := c.quietMs
    scan :=
      { pollInterval := orDefault c.pollInterval default.pollInterval
        flushesPerDocument := orDefault c.flushesPerDocument default.flushesPerDocument
        minReportingInterval := orDefault c.minReportingInterval default.minReportingInterval } }

end Config

end XmlHighlight
