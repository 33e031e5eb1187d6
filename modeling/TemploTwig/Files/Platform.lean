import TemploTwig.Files.Path

/-!
# What a run needs from its surroundings

A run reads and writes files, asks for environment variables and reports on its progress.  The
operations are a class, so the same run works on the machine's disk and on a file system that is
a value.

* `FileError`: why a file operation fails
* `Platform`: the operations
-/

namespace TemploTwig

/-- Why a file operation fails. -/
inductive FileError where
  | notFound
  | alreadyExists
  | notDirectory
  | isDirectory
  /-- The content is not UTF-8. -/
  | notText
  /-- Any other reason, in the system's words. -/
  | other (message : Text)
  deriving DecidableEq, Repr

/-- The wording of a file error. -/
def FileError.message : FileError → Text
  | notFound => "No such file or directory (os error 2)".toList
  | alreadyExists => "File exists (os error 17)".toList
  | notDirectory => "Not a directory (os error 20)".toList
  | isDirectory => "Is a directory (os error 21)".toList
  | notText => "stream did not contain valid UTF-8".toList
  | other message => message

/-- A member of a directory. -/
structure Member where
  name : Text
  isFile : Bool
  deriving DecidableEq, Repr

/-- The operations that a run needs. -/
class Platform (m : Type → Type) where
  /-- The absolute path of the working directory. -/
  currentDirectory : m Text
  /-- The value of an environment variable. -/
  lookup? : Text → m (Option Text)
  /-- Is there a file or directory at a path? -/
  pathExists : Text → m Bool
  /-- The content of a file. -/
  readFile : Text → m (Except FileError ByteArray)
  /-- The members of a directory. -/
  listDirectory : Text → m (Except FileError (List Member))
  /-- Create a directory and those around it. -/
  createDirectories : Text → m (Except FileError Unit)
  /-- Write a file, whether or not it is there. -/
  writeFile : Text → ByteArray → m (Except FileError Unit)
  /-- Tell the user something, in one line. -/
  report : Text → m Unit
  /-- Print to the standard output. -/
  print : Text → m Unit

namespace Platform

/-- The text in a file. -/
def readText {m : Type → Type} [Monad m] [Platform m] (path : Text) :
    m (Except FileError Text) := do
  match ← readFile path with
  | .ok bytes =>
    match String.fromUTF8? bytes with
    | some s => return .ok s.toList
    | none => return .error .notText
  | .error e => return .error e

/-- The bytes of a text. -/
def encode (t : Text) : ByteArray := (String.ofList t).toUTF8

end Platform

end TemploTwig
