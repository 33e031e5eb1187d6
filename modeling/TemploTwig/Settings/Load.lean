import TemploTwig.Settings.Basic

/-!
# Loading settings

The configuration file is given, or it is searched for in the working directory and those around
it.  Directories in the file are seen from where the file is.

* `Settings.discover`: the configuration file of the working directory
* `Settings.ofFile`: the settings in a file
* `Settings.load`: the settings of a run
-/

namespace TemploTwig.Settings

variable {m : Type → Type} [Monad m] [Platform m]

/-- The name of a configuration file. -/
def fileName : Text := "twigify.toml".toList

/-- The first of several directories that has a configuration file, as the path of that file. -/
def discoverIn : List Text → m (Option Text)
  | [] => return none
  | directory :: directories => do
    let candidate := Path.join directory fileName
    if ← Platform.pathExists candidate then return some candidate
    else discoverIn directories

/-- The configuration file of the working directory or of the closest one around it. -/
def discover : m (Option Text) := do
  let working ← Platform.currentDirectory
  discoverIn (Path.ancestors working.length working)

/-- A configured directory with its references replaced. -/
def expandField (field : Text) : Option Text → ExceptT SettingsError m (Option Text)
  | none => return none
  | some path => do
    match ← (expandPath (m := m) Platform.lookup? path).run with
    | .ok expanded => return some expanded
    | .error missing => throw (.unsetVariable field missing)

/-- A configured directory seen from the directory of the configuration file. -/
def resolveFrom (directory : Text) (path : Option Text) : Text :=
  (path.map (Path.join directory)).getD directory

/-- The settings in a file. -/
def ofFile (path : Text) : ExceptT SettingsError m Settings := do
  match ← Platform.readText (m := m) path with
  | .error e => throw (.unreadable e)
  | .ok content =>
    match RawSettings.ofText? content with
    | none => throw .malformed
    | some raw =>
      -- Variables are looked up before the options are checked.
      let input ← expandField "paths.input_dir".toList raw.inputDirectory
      let output ← expandField "paths.output_dir".toList raw.outputDirectory
      let directory := (Path.parent? path).getD ['.']
      -- The dot is dropped first, so an extension of a dot alone is empty.
      let options := raw.options.normalize
      match options.validate with
      | .error e => throw (.invalid e)
      | .ok () =>
        return {
          inputDirectory := resolveFrom directory input
          outputDirectory := resolveFrom directory output
          options
          file := some path }

/-- The settings of a run: from the given file, or else from the one that is found, or else with
    both directories at the working directory. -/
def load (file : Option Text) (overrides : Overrides) : ExceptT SettingsError m Settings := do
  match file with
  | some path =>
    if ← Platform.pathExists (m := m) path then return (← ofFile path).override overrides
    else throw (.notFound path)
  | none =>
    match ← discover (m := m) with
    | some path => return (← ofFile path).override overrides
    | none =>
      let working ← Platform.currentDirectory (m := m)
      return (Settings.atDirectory working).override overrides

end TemploTwig.Settings
