import TemploTwig.Command.Run

/-!
# The program

The operations of a run on the machine's own files, and the entry point of the command line.
-/

namespace TemploTwig

/-- The file error that an error of the system is. -/
def FileError.ofSystem : IO.Error → FileError
  | .noFileOrDirectory _ _ _ => notFound
  | .alreadyExists _ _ _ => alreadyExists
  | .inappropriateType _ code _ =>
    if code = 20 then notDirectory
    else if code = 21 then isDirectory
    else other "Inappropriate type".toList
  | e => other e.toString.toList

/-- The outcome of an action on files. -/
def attempt {α : Type} (action : IO α) : IO (Except FileError α) := do
  try
    return .ok (← action)
  catch e =>
    return .error (.ofSystem e)

/-- A path as the system takes it.  The empty path leads nowhere. -/
def systemPath (path : Text) := show IO _ from do
  if path = [] then throw (.noFileOrDirectory "" 2 "")
  else return (← IO.currentDir) / String.ofList path

instance : Platform IO where
  currentDirectory := do return (← IO.currentDir).toString.toList
  lookup? name := do return (← IO.getEnv (String.ofList name)).map String.toList
  pathExists path := do
    match ← attempt (systemPath path) with
    | .ok p => p.pathExists
    | .error _ => return false
  readFile path := attempt do
    IO.FS.readBinFile (← systemPath path)
  listDirectory path := attempt do
    let members ← (← systemPath path).readDir
    members.toList.mapM fun member => do
      let metadata ← member.path.metadata
      return ⟨member.fileName.toList, metadata.type == .file⟩
  createDirectories path := attempt do
    if path = [] then return
    else IO.FS.createDirAll (← systemPath path)
  writeFile path content := attempt do
    IO.FS.writeBinFile (← systemPath path) content
  report line := IO.eprintln (String.ofList line)
  print t := IO.print (String.ofList t)

end TemploTwig

/-- Run the program. -/
def main (arguments : List String) : IO UInt32 := do
  let status : TemploTwig.ExitStatus ← TemploTwig.run (arguments.map String.toList)
  return status.code.toUInt32
