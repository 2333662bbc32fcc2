import XmlHighlight.File.Path

/-!
# Files — what a path leads to

* `Lookup` — what a path leads to;
* `Files` — a way to follow paths, which may have effects;
* `FileTree` — files that are known beforehand.
-/

namespace XmlHighlight

/-- What a path leads to. -/
inductive Lookup where
  | directory
  | file (content : ByteArray)
  | missing
  /-- There is a file where a directory is needed. -/
  | notDirectory
  deriving BEq

/-- Why the text of a document cannot be had. -/
inductive ReadError where
  | missing
  | notDirectory
  | isDirectory
  | notUtf8
  deriving DecidableEq, Repr

/-- What the user is told. -/
def ReadError.message : ReadError → String
  | missing => "No such file or directory (os error 2)"
  | notDirectory => "Not a directory (os error 20)"
  | isDirectory => "Is a directory (os error 21)"
  | notUtf8 => "stream did not contain valid UTF-8"

namespace Lookup

/-- The text of a file. -/
def text : Lookup → Except ReadError String
  | directory => .error .isDirectory
  | missing => .error .missing
  | notDirectory => .error .notDirectory
  | file content =>
    match String.fromUTF8? content with
    | some text => .ok text
    | none => .error .notUtf8

/-- There is something. -/
def exists? : Lookup → Bool
  | directory => true
  | file _ => true
  | _ => false

/-- There is a directory. -/
def isDirectory : Lookup → Bool
  | directory => true
  | _ => false

end Lookup

/-- A way to follow paths. -/
structure Files (m : Type → Type) where
  find : String → m Lookup

/-- Files that are known beforehand, by their components from the root on, in some directories. A
    directory that contains something need not be listed. -/
structure FileTree where
  /-- The directory in which relative paths begin. -/
  current : List String
  files : List (List String × ByteArray)
  directories : List (List String)

namespace FileTree

/-- What stands at a place. -/
def at? (t : FileTree) (place : List String) : Lookup :=
  match t.files.find? (·.1 == place) with
  | some (_, content) => .file content
  | none =>
    if place.isEmpty || t.directories.any place.isPrefixOf
      || t.files.any (place.isPrefixOf ·.1) then
      .directory
    else .missing

/-- What some components lead to from a place on. -/
def walk (t : FileTree) : (place : List String) → List String → Lookup
  | place, [] => t.at? place
  | place, c :: rest =>
    match t.at? place with
    | .directory =>
      if c = "" ∨ c = "." then t.walk place rest
      else if c = ".." then t.walk place.dropLast rest
      else t.walk (place ++ [c]) rest
    | .file _ => .notDirectory
    | found => found

/-- What a path leads to. -/
def find (t : FileTree) (path : String) : Lookup :=
  t.walk (if Path.isAbsolute path then [] else t.current) (Path.components path)

/-- The files, without any effects. -/
def toFiles (t : FileTree) : Files Id := ⟨fun path => t.find path⟩

/-- The components of a place that a path names, with no directories to go back from. -/
def place (t : FileTree) (path : String) : List String :=
  (if Path.isAbsolute path then [] else t.current) ++
    (Path.components path).filter fun c => c != "" && c != "."

/-- One more file. -/
def add (t : FileTree) (path : String) (content : ByteArray) : FileTree :=
  { t with files := (t.place path, content) :: t.files }

/-- One more directory. -/
def addDirectory (t : FileTree) (path : String) : FileTree :=
  { t with directories := t.place path :: t.directories }

end FileTree

end XmlHighlight
