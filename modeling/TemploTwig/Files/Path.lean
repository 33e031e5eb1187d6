import TemploTwig.Text.Basic

/-!
# Paths

Paths are texts and stay as they are written: joining does not tidy them up.

* `Path.join`: a path seen from a directory
* `Path.parent?`: the path without its last component
* `Path.components`: the parts between slashes
-/

namespace TemploTwig.Path

/-- Does the path start at the root? -/
def isAbsolute (path : Text) : Bool := Text.startsWith path ['/']

/-- A path seen from a directory.  An absolute path does not depend on the directory, and no
    slash is put behind an empty directory or one that ends in a slash. -/
def join (directory path : Text) : Text :=
  if isAbsolute path then path
  else if directory = [] ∨ directory.getLast? = some '/' then directory ++ path
  else directory ++ '/' :: path

/-- A path, written backwards, without the slashes and the parts `.` at its end.  The root and a
    `.` at the front stay. -/
def trimBack : Text → Text
  | [] => []
  | ['/'] => ['/']
  | '/' :: rest => trimBack rest
  | ['.'] => ['.']
  | '.' :: '/' :: rest => trimBack ('/' :: rest)
  | path => path

/-- The path without its last component.  The root and the empty path have none. -/
def parent? (path : Text) : Option Text :=
  match trimBack path.reverse with
  | [] => none
  | ['/'] => none
  -- Cutting at the slash leaves it in front, so the rest is trimmed once more.
  | backwards => some (trimBack (backwards.dropWhile (· ≠ '/'))).reverse

/-- The parts of a path between slashes, empty ones included. -/
def components : Text → List Text
  | [] => [[]]
  | c :: cs =>
    if c = '/' then [] :: components cs
    else
      match components cs with
      | [] => [[c]]
      | part :: parts => (c :: part) :: parts

/-- A path and the directories around it, innermost first. -/
def ancestors : (fuel : Nat) → Text → List Text
  | 0, path => [path]
  | fuel + 1, path =>
    match parent? path with
    -- A parent is shorter than its path, so the length of the path is fuel enough.
    | some parent => path :: ancestors fuel parent
    | none => [path]

end TemploTwig.Path
