import XmlHighlight.File.System

/-!
# Writing — new files and directories

* `WriteError` — why a file or a directory cannot be made;
* `Path.parents` — the directories above a file;
* `FileTree.makeParents` — these directories, as far as they are missing;
* `FileTree.write` — a file with a new content.
-/

namespace XmlHighlight

/-- Why a file or a directory cannot be made. -/
inductive WriteError where
  | missing
  /-- There is a file where a directory is to be made. -/
  | taken
  | notDirectory
  | isDirectory
  deriving DecidableEq, Repr

/-- What the user is told. -/
def WriteError.message : WriteError → String
  | missing => "No such file or directory (os error 2)"
  | taken => "File exists (os error 17)"
  | notDirectory => "Not a directory (os error 20)"
  | isDirectory => "Is a directory (os error 21)"

/-- The components of a path but for the last. Those that lead nowhere do not count. -/
def Path.parents (path : String) : List String :=
  ((components path).filter fun c => c != "" && c != ".").dropLast

namespace FileTree

/-- The place where a path begins. -/
def origin (t : FileTree) (path : String) : List String :=
  if Path.isAbsolute path then [] else t.current

/-- The directories on the way from a place on, as far as they are missing. The whole way is tried
    first, and a file in it is in the way of what comes after it. Once a directory has been made,
    one after the other is tried. -/
def makeFrom (t : FileTree) (made : Bool) (place : List String) :
    List String → Except WriteError FileTree
  | [] => .ok t
  | c :: rest =>
    if c = ".." then t.makeFrom made place.dropLast rest
    else
      match t.at? (place ++ [c]) with
      | .directory => t.makeFrom made (place ++ [c]) rest
      | .missing =>
        makeFrom { t with directories := (place ++ [c]) :: t.directories } true (place ++ [c]) rest
      | _ => .error (if made || rest.isEmpty then .taken else .notDirectory)

/-- The directories above a file, as far as they are missing. -/
def makeParents (t : FileTree) (path : String) : Except WriteError FileTree :=
  if (Path.parents path).isEmpty then .ok t
  else
    match t.at? (t.origin path) with
    | .directory => t.makeFrom false (t.origin path) (Path.parents path)
    | .file _ => .error .notDirectory
    | _ => .error .missing

/-- A file at a place, instead of the one that was there. -/
def put (t : FileTree) (place : List String) (content : ByteArray) : FileTree :=
  { t with files := (place, content) :: t.files }

/-- A file where some components lead from a place on. All but the last have to lead to
    directories. -/
def writeFrom (t : FileTree) (content : ByteArray) :
    (place : List String) → List String → Except WriteError FileTree
  | _, [] => .error .isDirectory
  | place, c :: rest =>
    match t.at? place with
    | .directory =>
      if c = "" ∨ c = "." then t.writeFrom content place rest
      else if c = ".." then t.writeFrom content place.dropLast rest
      else if rest.all (· == "") then
        -- A slash at the end of a path asks for a directory.
        if rest.isEmpty && !(t.at? (place ++ [c])).isDirectory then
          .ok (t.put (place ++ [c]) content)
        else .error .isDirectory
      else t.writeFrom content (place ++ [c]) rest
    | .file _ => .error .notDirectory
    | _ => .error .missing

/-- A file at a path. -/
def write (t : FileTree) (path : String) (content : ByteArray) : Except WriteError FileTree :=
  if path.isEmpty then .error .missing
  else t.writeFrom content (t.origin path) (Path.components path)

end FileTree

end XmlHighlight
