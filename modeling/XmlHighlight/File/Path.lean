/-!
# Paths — names of files, with slashes between their components

Paths are joined as texts; nothing in them is simplified.

* `Path.join` — a path below another;
* `Path.components` — what stands between the slashes.
-/

namespace XmlHighlight.Path

/-- The path begins at the root. -/
def isAbsolute (path : String) : Bool := path.toList.head? == some '/'

/-- A path below another. A slash is added if there is none, and an absolute path stays as it is. -/
def join (left right : String) : String :=
  if isAbsolute right || left.isEmpty then right
  else if left.toList.getLast? == some '/' then left ++ right
  else left ++ "/" ++ right

/-- The pieces between the slashes of some characters. -/
def splitSlashes : List Char → List (List Char)
  | [] => [[]]
  | c :: rest =>
    match splitSlashes rest with
    | [] => [[c]]
    | piece :: pieces => if c = '/' then [] :: piece :: pieces else (c :: piece) :: pieces

/-- What stands between the slashes of a path. Some of it may be empty. -/
def components (path : String) : List String := (splitSlashes path.toList).map String.ofList

end XmlHighlight.Path
