import TemploTwig.Files.Platform

/-!
# A file system as a value

Files and directories by their location, the list of names from the root.  There are no links,
so a location is a path without `.` and `..`.

* `FileSystem.locate`: the location that a path leads to
* `FileSystem.write`: and the other operations on paths
* `Surroundings`: a file system with a working directory, an environment and an output
-/

namespace TemploTwig

/-- The names on the way from the root. -/
abbrev Location := List Text

/-- What is at a location. -/
inductive Entry where
  | file (content : ByteArray)
  | directory

/-- Is the entry a directory? -/
def Entry.isDirectory : Entry → Bool
  | file _ => false
  | directory => true

/-- The files and directories below the root. -/
structure FileSystem where
  entries : List (Location × Entry)

namespace FileSystem

/-- No file and no directory but the root. -/
def empty : FileSystem := ⟨[]⟩

/-- What is at a location. -/
def get? (fs : FileSystem) (location : Location) : Option Entry :=
  if location = [] then some .directory
  else (fs.entries.find? (·.1 = location)).map Prod.snd

/-- Put an entry at a location. -/
def put (location : Location) (entry : Entry) (fs : FileSystem) : FileSystem :=
  ⟨(location, entry) :: fs.entries.filter (·.1 ≠ location)⟩

/-- Put a directory and those around it in place. -/
def putDirectories (location : Location) (fs : FileSystem) : FileSystem :=
  (List.range (location.length + 1)).foldl (fun fs n =>
    if (fs.get? (location.take n)).isSome then fs else fs.put (location.take n) .directory) fs

/-- Walk on from a location. -/
def walk (fs : FileSystem) : Location → List Text → Except FileError Location
  | location, [] => .ok location
  | location, part :: parts =>
    match fs.get? location with
    | some .directory =>
      -- Empty parts stem from slashes in front, in a row or at the end.
      if part = [] ∨ part = ['.'] then walk fs location parts
      else if part = ['.', '.'] then walk fs location.dropLast parts
      else
        let next := location ++ [part]
        if (fs.get? next).isSome then walk fs next parts else .error .notFound
    | some (.file _) => .error .notDirectory
    | none => .error .notFound

/-- Where the walk along a path starts. -/
def start (working : Location) (path : Text) : Location :=
  if Path.isAbsolute path then [] else working

/-- The location that a path leads to, seen from the working directory. -/
def locate (fs : FileSystem) (working : Location) (path : Text) : Except FileError Location :=
  if path = [] then .error .notFound
  else fs.walk (start working path) (Path.components path)

/-- Is there a directory at a path? -/
def isDirectory (fs : FileSystem) (working : Location) (path : Text) : Bool :=
  match fs.locate working path with
  | .ok location => (fs.get? location).any Entry.isDirectory
  | .error _ => false

/-- The content of the file at a path. -/
def read (fs : FileSystem) (working : Location) (path : Text) : Except FileError ByteArray := do
  let location ← fs.locate working path
  match fs.get? location with
  | some (.file content) => return content
  | some .directory => throw .isDirectory
  | none => throw .notFound

/-- The members of the directory at a path. -/
def list (fs : FileSystem) (working : Location) (path : Text) :
    Except FileError (List Member) := do
  let location ← fs.locate working path
  match fs.get? location with
  | some .directory =>
    -- The root has no last name, so it is no member of itself.
    return fs.entries.filterMap fun (l, entry) =>
      if l.dropLast = location then
        l.getLast?.map fun name => ⟨name, !entry.isDirectory⟩
      else none
  | some (.file _) => throw .notDirectory
  | none => throw .notFound

/-- The directory around the last part of a path, and that part.  Slashes at the end of the path
    do not count. -/
def locateParent (fs : FileSystem) (working : Location) (path : Text) :
    Except FileError (Location × Text) := do
  let parts := ((Path.components path).reverse.dropWhile (· = [])).reverse
  match parts.getLast? with
  -- A path of slashes only is the root.
  | none => return ([], [])
  | some name =>
    let location ← fs.walk (start working path) (parts.dropLast)
    match fs.get? location with
    | some .directory => return (location, name)
    | some (.file _) => throw .notDirectory
    | none => throw .notFound

/-- Is the part of a path no name of its own? -/
def isDot (part : Text) : Bool := part == [] || part == ['.'] || part == ['.', '.']

/-- Create a directory in one that is there. -/
def createDirectory (fs : FileSystem) (working : Location) (path : Text) :
    Except FileError FileSystem := do
  let (location, name) ← fs.locateParent working path
  if isDot name ∨ (fs.get? (location ++ [name])).isSome then throw .alreadyExists
  else return fs.put (location ++ [name]) .directory

/-- Create the first of several directories, each in the next of them.  Where a step fails, what
    was created before stays. -/
def createAll (working : Location) : List Text → FileSystem → Except FileError Unit × FileSystem
  | [], fs => (.ok (), fs)
  | [] :: _, fs => (.ok (), fs)
  | path :: around, fs =>
    match fs.createDirectory working path with
    | .ok fs => (.ok (), fs)
    | .error .notFound =>
      -- The directory around it is missing, too, so that one is created first.
      match createAll working around fs with
      | (.ok (), fs) =>
        match fs.createDirectory working path with
        | .ok fs => (.ok (), fs)
        | .error e => (if fs.isDirectory working path then .ok () else .error e, fs)
      -- What was created on the way stays.
      | failed => failed
    | .error e => (if fs.isDirectory working path then .ok () else .error e, fs)

/-- Write the file at a path. -/
def write (fs : FileSystem) (working : Location) (path : Text) (content : ByteArray) :
    Except FileError FileSystem := do
  let (location, name) ← fs.locateParent working path
  let target := location ++ [name]
  if isDot name ∨ (fs.get? target).any Entry.isDirectory then throw .isDirectory
  -- A slash at the end asks for a directory.
  else if Text.startsWith path.reverse ['/'] then throw .notDirectory
  else return fs.put target (.file content)

end FileSystem

/-- All that a run can see and change. -/
structure Surroundings where
  files : FileSystem
  working : Location := []
  environment : List (Text × Text) := []
  /-- The lines reported so far, newest first. -/
  reports : List Text := []
  /-- What has been printed so far. -/
  printed : Text := []

namespace Surroundings

/-- The absolute path of a location. -/
def pathOf (location : Location) : Text :=
  if location = [] then ['/'] else location.flatMap ('/' :: ·)

instance : Platform (StateM Surroundings) where
  currentDirectory := do return pathOf (← get).working
  lookup? name := do return ((← get).environment.find? (·.1 = name)).map Prod.snd
  pathExists path := do
    let s ← get
    return (s.files.locate s.working path).toOption.isSome
  readFile path := do
    let s ← get
    return s.files.read s.working path
  listDirectory path := do
    let s ← get
    return s.files.list s.working path
  createDirectories path := do
    let s ← get
    let (result, files) :=
      FileSystem.createAll s.working (Path.ancestors path.length path) s.files
    set { s with files }
    return result
  writeFile path content := do
    let s ← get
    match s.files.write s.working path content with
    | .ok files =>
      set { s with files }
      return .ok ()
    | .error e => return .error e
  report line := modify fun s => { s with reports := line :: s.reports }
  print t := modify fun s => { s with printed := s.printed ++ t }

end Surroundings

end TemploTwig
