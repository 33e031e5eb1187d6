import TemploTwig.Command.Arguments
import TemploTwig.Conversion.Template
import TemploTwig.Settings.Load
import TemploTwig.Source.TemplatePath

/-!
# A run

A run converts every template of the input directory and writes the results to the output
directory.  All templates are read and converted before the first result is written.  A template
that fails is reported and does not stop the run.

* `selected`: the templates of a directory, in order
* `convertAll` the templates converted
* `execute`: a run
* `run`: a command
-/

namespace TemploTwig

/-- Why a template of a run is not converted. -/
inductive TemplateFailure where
  | unreadable (cause : FileError)
  | unconvertible (cause : ConvertError)
  deriving DecidableEq, Repr

/-- The wording of a failure. -/
def TemplateFailure.message : TemplateFailure → Text
  | unreadable cause => "failed to read: ".toList ++ cause.message
  | unconvertible cause => cause.message

/-- Why a run ends early. -/
inductive RunError where
  | settings (cause : SettingsError)
  | noDirectory (cause : FileError)
  | unwritable (path : Text) (cause : FileError)
  deriving DecidableEq, Repr

/-- The wording of an error. -/
def RunError.message : RunError → Text
  | settings cause => cause.message
  | noDirectory cause => cause.message
  | unwritable path cause => "Failed to write ".toList ++ path ++ ": ".toList ++ cause.message

/-- How many templates were converted and how many failed. -/
structure Tally where
  converted : Nat := 0
  failed : Nat := 0
  deriving DecidableEq, Repr

/-- The name of a template without the source extension.  A name that is nothing but the extension
    belongs to no template. -/
def templateStem? (extension name : Text) : Option Text :=
  (TemplatePath.stem? extension name).filter (· ≠ [])

/-- The name of the file for a converted template. -/
def targetName (options : Options) (name : Text) : Text :=
  TemplatePath.withExtension options.targetExtension
    ((templateStem? options.sourceExtension name).getD name)

/-- The names of the templates among the members of a directory, in order. -/
def selected (options : Options) (members : List Member) : List Text :=
  let names := members.filterMap fun member =>
    if member.isFile ∧ (templateStem? options.sourceExtension member.name).isSome then
      some member.name
    else none
  names.mergeSort Text.atMost

/-- A template of a run and what came of it. -/
structure Outcome where
  source : Text
  target : Text
  result : Except TemplateFailure Text

variable {m : Type → Type} [Monad m] [Platform m]

/-- Convert a template of a directory. -/
def convertFile (options : Options) (directory name : Text) : m Outcome := do
  let source := Path.join directory name
  let result : Except TemplateFailure Text ← do
    match ← Platform.readText source with
    | .error e => pure (.error (.unreadable e))
    | .ok content =>
      -- The kind of a template is read off its first tag.
      match (convertTemplate options none content).result with
      | .error e => pure (.error (.unconvertible e))
      | .ok output => pure (.ok output)
  return ⟨source, targetName options name, result⟩

/-- Convert templates of a directory. -/
def convertAll (options : Options) (directory : Text) (names : List Text) : m (List Outcome) :=
  names.mapM (convertFile options directory)

/-- Write a converted template.  The result is its path. -/
def writeOutput (directory target output : Text) : ExceptT RunError m Text := do
  match ← Platform.createDirectories (m := m) directory with
  | .error e => throw (.noDirectory e)
  | .ok () =>
    let path := Path.join directory target
    match ← Platform.writeFile (m := m) path (Platform.encode output) with
    | .error e => throw (.unwritable path e)
    | .ok () => return path

/-- Report on a converted template, and write it unless the run only checks. -/
def settle (check : Bool) (directory : Text) (tally : Tally) (outcome : Outcome) :
    ExceptT RunError m Tally := do
  match outcome.result with
  | .ok output =>
    if check then
      Platform.report (m := m) (outcome.source ++ ": ok".toList)
    else
      -- A result that cannot be written ends the run.
      let path ← writeOutput directory outcome.target output
      Platform.report (m := m) (outcome.source ++ " -> ".toList ++ path)
    return { tally with converted := tally.converted + 1 }
  | .error e =>
    Platform.report (m := m) (outcome.source ++ ": ".toList ++ e.message)
    return { tally with failed := tally.failed + 1 }

/-- The last line of a run. -/
def summary (check : Bool) (tally : Tally) : Text :=
  let verb := if check then "checked".toList else "converted".toList
  decimal tally.converted ++ " template(s) ".toList ++ verb ++ ", ".toList ++
    decimal tally.failed ++ " failed".toList

/-- Convert the templates of a directory. -/
def convertDirectory (check : Bool) (settings : Settings) : ExceptT RunError m Tally := do
  let options := settings.options
  Platform.report (m := m) ("Scanning ".toList ++ settings.inputDirectory ++ " for .".toList ++
    options.sourceExtension ++ " templates".toList)
  match ← Platform.listDirectory (m := m) settings.inputDirectory with
  | .error e =>
    -- A directory that cannot be listed is reported, and the run ends well.
    Platform.report (m := m) ("Unable to scan directory: ".toList ++ e.message)
    return {}
  | .ok members =>
    match selected options members with
    | [] =>
      Platform.report (m := m) "No templates found".toList
      return {}
    | names =>
      -- Everything is read before anything is written, so no result is read as a template.
      let converted ← convertAll (m := m) options settings.inputDirectory names
      let tally ← converted.foldlM (settle check settings.outputDirectory) {}
      Platform.report (m := m) (summary check tally)
      return tally

/-- Load the settings and convert. -/
def execute (arguments : Arguments) : ExceptT RunError m Tally := do
  match ← (Settings.load (m := m) arguments.configuration arguments.overrides).run with
  | .error e => throw (.settings e)
  | .ok settings => convertDirectory arguments.check settings

/-- How a command ends. -/
inductive ExitStatus where
  | success
  | failure
  /-- The arguments are not understood. -/
  | usage
  deriving DecidableEq, Repr

/-- The number that the operating system gets. -/
def ExitStatus.code : ExitStatus → Nat
  | success => 0
  | failure => 1
  | usage => 2

/-- The program's name and version. -/
def versionText : Text := "twigify 0.1.0\n".toList

/-- How the program is used. -/
def helpText : Text :=
  ("Templo to Twig template converter - CLI\n\nUsage: twigify [OPTIONS]\n\nOptions:\n" ++
    "  -c, --config <CONFIG>      Path to configuration file (default: auto-discover twigify.toml)\n" ++
    "  -i, --input <INPUT_DIR>    Directory to scan for source templates (overrides config)\n" ++
    "  -o, --output <OUTPUT_DIR>  Directory to write converted templates to (overrides config)\n" ++
    "      --check                Convert without writing anything\n" ++
    "  -v, --verbose              Enable verbose output\n" ++
    "  -h, --help                 Print help\n" ++
    "  -V, --version              Print version\n").toList

/-- Run the command that a list of arguments gives. -/
def run (arguments : List Text) : m ExitStatus := do
  match Command.parse? arguments with
  | none => return .usage
  | some .showVersion =>
    Platform.print versionText
    return .success
  | some .showHelp =>
    Platform.print helpText
    return .success
  | some (.convert arguments) =>
    match ← (execute (m := m) arguments).run with
    | .ok tally => return if tally.failed = 0 then .success else .failure
    | .error e =>
      Platform.report ("Error: ".toList ++ e.message)
      return .failure

end TemploTwig
