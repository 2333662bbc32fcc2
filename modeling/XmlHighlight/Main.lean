import XmlHighlight.Watch

/-!
# The command line program

The files and the time are those of the operating system; everything else is decided by `findJob`,
`Output.ofText` and `Watch`.
-/

namespace XmlHighlight

/-- A path leads to a directory in the file system of the operating system. -/
def isDirectory (path : String) : IO Bool := do
  try
    let place ← IO.FS.realPath path
    place.isDir
  catch _ => return false

/-- What a path leads to in the file system of the operating system. -/
def lookupFile (path : String) : IO Lookup := do
  if ← isDirectory path then return .directory
  try
    return .file (← IO.FS.readBinFile path)
  catch
    | .inappropriateType .. => return .notDirectory
    | _ => return .missing

/-- The files of the operating system. -/
def osFiles : Files IO := ⟨lookupFile⟩

/-- The user's directory for this program. -/
def userDirectories : IO Directories := do
  let configHome ← IO.getEnv "XDG_CONFIG_HOME"
  let home ← IO.getEnv "HOME"
  return .ofEnvironment configHome (home.getD "")

/-- Writes for the user and about failures. -/
def write (stdout stderr : String) : IO Unit := do
  IO.print stdout
  IO.eprint stderr
  (← IO.getStdout).flush

/-- How long a host that watches a document waits for a request, in milliseconds. -/
def tick : UInt32 := 50

/-- Watches a document until it cannot be read any more. `before` is what its path has led to
    last. -/
partial def watchFile (w : Watch) (before : Lookup) : IO UInt32 := do
  match w.work? (← IO.monoMsNow) with
  | some w => watchFile w before
  | none =>
    let w ← match w.handle? with
      | some ((stdout, stderr), w) =>
        write stdout stderr
        pure w
      | none =>
        IO.sleep tick
        pure w
    let found ← lookupFile w.run.file
    if found == before then watchFile w before
    else
      match w.reload found (← IO.monoMsNow) with
      | .ok w => watchFile w found
      | .error output =>
        write output.stdout output.stderr
        return UInt32.ofNat output.code

end XmlHighlight

open XmlHighlight in
/-- Runs the program. -/
def main (arguments : List String) : IO UInt32 := do
  match ← findJob osFiles (← userDirectories) arguments with
  | .ok job =>
    if job.run.watch then watchFile (.start job) (.file job.text.toUTF8)
    else
      let output := Output.ofText job.run job.theme job.text
      write output.stdout output.stderr
      return UInt32.ofNat output.code
  | .error output =>
    write output.stdout output.stderr
    return UInt32.ofNat output.code
