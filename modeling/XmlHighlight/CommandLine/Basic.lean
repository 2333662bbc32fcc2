/-!
# Command line — what the user asks for

* `Format`, `Arguments` — the options and the document;
* `UsageError`, `Halt` — why there is nothing to highlight.
-/

namespace XmlHighlight

/-- How a document is shown. -/
inductive Format where
  /-- With colors for a terminal. -/
  | ansi
  /-- As a list of styled runs. -/
  | json
  deriving DecidableEq, Repr

namespace Format

/-- The name of a format on the command line. -/
def name : Format → String
  | ansi => "ansi"
  | json => "json"

/-- The format of a given name. -/
def ofName? (name : String) : Option Format := [ansi, json].find? (·.name == name)

end Format

/-- What the user has given, in so far as it has been given. -/
structure Arguments where
  file : Option String := none
  watch : Bool := false
  theme : Option String := none
  quietMs : Option Nat := none
  format : Option Format := none
  deriving DecidableEq, Repr

/-- What is wrong with a command line. -/
inductive UsageError where
  | missingFile
  /-- An option that there is not, or a second document. -/
  | unknownArgument
  /-- A value is missing, empty, or not among those allowed. -/
  | invalidValue
  | invalidNumber
  | givenTwice
  /-- A value for an option that has none. -/
  | unneededValue
  deriving DecidableEq, Repr

/-- What the user is told. -/
def UsageError.message : UsageError → String
  | missingFile => "error: the document is missing"
  | unknownArgument => "error: unknown argument"
  | invalidValue => "error: a value is missing or invalid"
  | invalidNumber => "error: a number is invalid"
  | givenTwice => "error: an option is given twice"
  | unneededValue => "error: an option has no value"

/-- Why there is nothing to highlight. -/
inductive Halt where
  | usage (error : UsageError)
  /-- Help is wanted, at length or not. -/
  | help (long : Bool)
  | version
  deriving DecidableEq, Repr

end XmlHighlight
