import XmlHighlight.CommandLine.Help
import XmlHighlight.CommandLine.Parse
import XmlHighlight.Config.Basic
import XmlHighlight.Config.Directories
import XmlHighlight.File.System
import XmlHighlight.Render.Ansi
import XmlHighlight.Render.Json
import XmlHighlight.Worker.Session

/-!
# Program — a document is highlighted once and printed

* `RunConfig` — what a command line and the settings together ask for;
* `findTheme`, `chooseTheme` — the theme of a given id, and the one that is used;
* `highlightOnce` — a worker highlights a document;
* `findJob` — what a command line asks for, given a way to look at files;
* `runProgram` — the whole program.
-/

namespace XmlHighlight

/-- What is to be done. -/
structure RunConfig where
  file : String
  watch : Bool
  theme : String
  format : Format
  highlighting : Highlighting
  deriving DecidableEq, Repr

/-- What is to be done with a file. What stands on the command line counts more than the
    settings. -/
def Arguments.resolve (a : Arguments) (config : Config) (file : String) : RunConfig :=
  let highlighting := config.highlighting
  { file
    watch := a.watch
    theme := a.theme.getD config.theme
    format := a.format.getD .ansi
    highlighting := { highlighting with quietMs := a.quietMs.getD highlighting.quietMs } }

/-- What is to be done. The document must not be a directory; the error is its name. -/
def Arguments.resolve? {m : Type → Type} [Monad m] (a : Arguments) (config : Config)
    (files : Files m) : m (Except String RunConfig) := do
  let file := a.file.getD ""
  let found ← files.find file
  if found.isDirectory then return .error (file ++ " is a directory")
  else return .ok (a.resolve config file)

/-! ### Themes -/

/-- The theme of a given id, where `found` stands at the place of the user's file. -/
def findTheme (id : String) (found : Lookup) : Except ThemeError Theme :=
  if found.exists? then
    match found.text with
    | .ok text => Theme.load id (some text)
    | .error _ => .error .unreadable
  else Theme.load id none

/-- The theme of a given id, or the one for light terminals if there is none. -/
def chooseTheme (id : String) (found : Lookup) : Theme :=
  match findTheme id found with
  | .ok theme => theme
  | .error _ => .classic

/-! ### Highlighting -/

/-- How many requests are handled at most before a document is printed as it is. -/
def patience : Nat := Nat.pow 2 62

/-- A document highlighted by a worker, and why that has failed if it has. -/
def highlightOnce (settings : Settings) (text : String) : StyledBuffer × Option String :=
  let buffer := StyledBuffer.ofText text
  let (events, s) := ((Session.start settings buffer).load none).pump patience none
  let shown :=
    match s.channel with
    | some c => c.surface.buffer
    | none => buffer
  match events.getLast? with
  | some (.notified message) => (shown, some message)
  | _ => (shown, none)

/-- A buffer in a given format. -/
def StyledBuffer.render (b : StyledBuffer) (theme : Theme) : Format → String
  | .ansi => b.toAnsi theme
  | .json => b.toJson ++ "\n"

/-! ### The program -/

/-- What the program has written, and the number with which it ends. -/
structure Output where
  code : Nat
  stdout : String
  /-- What is written to the error stream while the log is switched off. The lines of the log, which
      go there too, are left out. -/
  stderr : String
  deriving DecidableEq, Repr

namespace Output

/-- The program has failed. -/
def failure (message : String) : Output := ⟨1, "", "Error: " ++ message ++ "\n"⟩

/-- There is nothing to highlight. -/
def ofHalt : Halt → Output
  | .usage error => ⟨2, "", error.message ++ "\n"⟩
  | .help long => ⟨0, helpText long, ""⟩
  | .version => ⟨0, versionText, ""⟩

/-- The document cannot be read. -/
def unreadable (file : String) (error : ReadError) : Output :=
  failure ("Failed to read " ++ file ++ "\n\nCaused by:\n    " ++ error.message)

/-- A document that has been highlighted, if that is possible. -/
def ofText (run : RunConfig) (theme : Theme) (text : String) : Output :=
  let (buffer, failure) := highlightOnce run.highlighting.scan text
  ⟨0, buffer.render theme run.format, (failure.map (· ++ "\n")).getD ""⟩

end Output

/-- A document, and what is to be done with it. -/
structure Job where
  run : RunConfig
  theme : Theme
  text : String

/-- What a command line asks for, with the settings, the theme and the document; or what is written
    if there is nothing to be done. -/
def findJob {m : Type → Type} [Monad m] (files : Files m) (directories : Directories)
    (arguments : List String) : m (Except Output Job) := do
  match parseArguments arguments with
  | .error halt => return .error (.ofHalt halt)
  | .ok arguments =>
    let config := Config.load (← files.find directories.configFile)
    match ← arguments.resolve? config files with
    | .error message => return .error (.failure message)
    | .ok run =>
      let theme := chooseTheme run.theme (← files.find (directories.themeFile run.theme))
      match (← files.find run.file).text with
      | .error e => return .error (.unreadable run.file e)
      | .ok text => return .ok ⟨run, theme, text⟩

/-- The whole program, unless the document is watched: it is highlighted once. -/
def runProgram {m : Type → Type} [Monad m] (files : Files m) (directories : Directories)
    (arguments : List String) : m Output := do
  match ← findJob files directories arguments with
  | .error output => return output
  | .ok job => return .ofText job.run job.theme job.text

end XmlHighlight
