import XmlHighlight.CommandLine.Basic
import XmlHighlight.Yaml.Number

/-!
# Reading a command line

Arguments are taken from left to right. A value that stands in an argument of its own is looked at
only when the next option or the document follows, or at the end; until then it is pending. An
argument that is not known counts before what is pending.

* `Reader` — a command line that is being read;
* `parseArguments` — the whole of it.
-/

namespace XmlHighlight

namespace CommandLine

/-- What has a value. -/
inductive Slot where
  | file
  | theme
  | quietMs
  | format
  deriving DecidableEq, Repr

/-- An option. -/
inductive Switch where
  | watch
  | help (long : Bool)
  | version
  /-- Its value follows. -/
  | valued (slot : Slot)
  deriving DecidableEq, Repr

/-- The option of a given long name. -/
def longSwitch? (name : String) : Option Switch :=
  [("watch", Switch.watch), ("theme", .valued .theme), ("quiet-period-ms", .valued .quietMs),
    ("format", .valued .format), ("help", .help true), ("version", .version)].lookup name

/-- The option of a given letter. -/
def shortSwitch? (letter : Char) : Option Switch :=
  [('w', Switch.watch), ('t', .valued .theme), ('f', .valued .format), ('h', .help false),
    ('V', .version)].lookup letter

/-- A whole number in base ten that fits in 64 bits, maybe with a plus sign. -/
def readNumber? (text : String) : Option Nat :=
  (Yaml.digitsValue? 10 (Yaml.withoutPlus text.toList)).filter (· < UInt64.size)

/-- A command line that is being read. -/
structure Reader where
  arguments : Arguments := {}
  /-- What has been named last, and its value if there is one already. -/
  pending : Option (Slot × Option String) := none
  /-- There has been a document. -/
  hasFile : Bool := false
  /-- Two hyphens have been read, and there are no options any more. -/
  onlyFiles : Bool := false

namespace Reader

/-- The arguments with the value of one more slot, which has to be there, to be allowed, and to be
    the only one. -/
def store (a : Arguments) (slot : Slot) (value : Option String) : Except Halt Arguments :=
  match value with
  | none => .error (.usage .invalidValue)
  | some value =>
    match slot with
    | .file =>
      if value.isEmpty then .error (.usage .invalidValue) else .ok { a with file := some value }
    | .theme =>
      if a.theme.isSome then .error (.usage .givenTwice) else .ok { a with theme := some value }
    | .quietMs =>
      if a.quietMs.isSome then .error (.usage .givenTwice)
      else
        match readNumber? value with
        | some n => .ok { a with quietMs := some n }
        | none => .error (.usage .invalidNumber)
    | .format =>
      if a.format.isSome then .error (.usage .givenTwice)
      else
        match Format.ofName? value with
        | some format => .ok { a with format := some format }
        | none => .error (.usage .invalidValue)

/-- Nothing is pending any more. -/
def settle (r : Reader) : Except Halt Reader :=
  match r.pending with
  | none => .ok r
  | some (slot, value) =>
    match store r.arguments slot value with
    | .ok arguments => .ok { r with arguments, pending := none }
    | .error halt => .error halt

/-- A value that is attached to its option. -/
def attach (r : Reader) (slot : Slot) (value : String) : Except Halt Reader := do
  let r ← r.settle
  let arguments ← store r.arguments slot (some value)
  pure { r with arguments }

/-- An option whose value follows. -/
def expect (r : Reader) (slot : Slot) : Except Halt Reader := do
  let r ← r.settle
  pure { r with pending := some (slot, none) }

/-- An option without a value. -/
def flip (r : Reader) (s : Switch) : Except Halt Reader := do
  let r ← r.settle
  match s with
  | .watch =>
    if r.arguments.watch then throw (.usage .givenTwice)
    else pure { r with arguments := { r.arguments with watch := true } }
  | .help long => throw (.help long)
  | .version => throw .version
  | .valued _ => pure r

/-- A long option: its name, and the value after an equals sign if there is one. -/
def long (r : Reader) (name : String) (value : Option String) : Except Halt Reader :=
  match longSwitch? name, value with
  | none, _ => .error (.usage .unknownArgument)
  | some (.valued slot), some value => r.attach slot value
  | some (.valued slot), none => r.expect slot
  | some _, some _ => .error (.usage .unneededValue)
  | some s, none => r.flip s

/-- Options of one letter each. A value may follow the last, with or without an equals sign. -/
def short (r : Reader) : List Char → Except Halt Reader
  | [] => .ok r
  | letter :: rest =>
    match shortSwitch? letter with
    | none => .error (.usage .unknownArgument)
    | some (.valued slot) =>
      match rest with
      | [] => r.expect slot
      | '=' :: value => r.attach slot (String.ofList value)
      | value => r.attach slot (String.ofList value)
    | some s =>
      match r.flip s with
      | .ok r => r.short rest
      | .error halt => .error halt

/-- A value that stands alone: that of the option before, or the document. -/
def positional (r : Reader) (value : String) : Except Halt Reader :=
  if r.hasFile then .error (.usage .unknownArgument)
  else
    match r.settle with
    | .ok r => .ok { r with pending := some (.file, some value), hasFile := true }
    | .error halt => .error halt

/-- A value that stands alone, if it is no option. -/
def value (r : Reader) (text : String) : Except Halt Reader :=
  -- The first value after an option that needs one belongs to it, whatever it is.
  match r.pending with
  | some (slot, none) => .ok { r with pending := some (slot, some text) }
  | _ => r.positional text

/-- The next argument. -/
def take (r : Reader) (argument : String) : Except Halt Reader :=
  if r.onlyFiles then r.positional argument
  else
    match argument.toList with
    | ['-', '-'] => .ok { r with onlyFiles := true }
    | '-' :: '-' :: text =>
      let name := text.takeWhile (· != '=')
      match text.dropWhile (· != '=') with
      | _ :: value => r.long (String.ofList name) (some (String.ofList value))
      | [] => r.long (String.ofList name) none
    | '-' :: letter :: rest => r.short (letter :: rest)
    | _ => r.value argument

end Reader

end CommandLine

/-- What a command line asks for. There has to be a document. -/
def parseArguments (arguments : List String) : Except Halt Arguments := do
  let r ← arguments.foldlM CommandLine.Reader.take {}
  let r ← r.settle
  if r.arguments.file.isSome then pure r.arguments else throw (.usage .missingFile)

end XmlHighlight
