import TemploTwig.Conversion.Context
import TemploTwig.Files.Platform
import TemploTwig.Settings.Expansion
import TemploTwig.Toml.Document

/-!
# Settings

A run reads its directories and its conversion options from a configuration file.

* `Settings`: what a run needs to know
* `Options.validate`: are the options of any use?
* `RawSettings.ofItems?` the settings in a configuration file, as they are written
-/

namespace TemploTwig

/-- A setting that cannot be empty or has another fault. -/
inductive InvalidSetting where
  | empty (field : Text)
  | hasSeparator (field : Text)
  deriving DecidableEq, Repr

/-- Why settings cannot be loaded. -/
inductive SettingsError where
  | notFound (path : Text)
  | unreadable (cause : FileError)
  /-- The file is no TOML document, or a setting has the wrong type. -/
  | malformed
  | invalid (cause : InvalidSetting)
  | unsetVariable (field : Text) (missing : UnsetVariable)
  deriving DecidableEq, Repr

/-- The wording of an invalid setting. -/
def InvalidSetting.message : InvalidSetting → Text
  | empty field => field ++ " cannot be empty".toList
  | hasSeparator field => field ++ " cannot contain path separators".toList

/-- The wording of an error. -/
def SettingsError.message : SettingsError → Text
  | notFound path => "Configuration file not found: ".toList ++ path
  | unreadable cause => "I/O error: ".toList ++ cause.message
  | malformed => "TOML parse error".toList
  | invalid cause => "Configuration error: ".toList ++ cause.message
  | unsetVariable field missing =>
    "Environment variable error in ".toList ++ field ++ ": $\x7b".toList ++ missing.name ++
      "\x7d not set".toList

/-- What a run needs to know. -/
structure Settings where
  /-- The directory with the templates. -/
  inputDirectory : Text
  /-- The directory for the converted templates. -/
  outputDirectory : Text
  options : Options := {}
  /-- The configuration file, if one was read. -/
  file : Option Text := none
  deriving DecidableEq, Repr

/-- Settings without a configuration file, with both directories at the same place. -/
def Settings.atDirectory (directory : Text) : Settings :=
  { inputDirectory := directory, outputDirectory := directory }

/-- Directories given on the command line.  They replace the configured ones. -/
structure Overrides where
  inputDirectory : Option Text := none
  outputDirectory : Option Text := none
  deriving DecidableEq, Repr

/-- The settings with the directories from the command line. -/
def Settings.override (s : Settings) (o : Overrides) : Settings :=
  { s with
    inputDirectory := o.inputDirectory.getD s.inputDirectory
    outputDirectory := o.outputDirectory.getD s.outputDirectory }

/-- Check that a setting is not empty. -/
def requireNonEmpty (field value : Text) : Except InvalidSetting Unit :=
  if value = [] then .error (.empty field) else .ok ()

/-- Check that a setting can be the end of a file name. -/
def requireExtension (field value : Text) : Except InvalidSetting Unit := do
  requireNonEmpty field value
  if '/' ∈ value ∨ '\\' ∈ value then throw (.hasSeparator field)

/-- Check the options. -/
def Options.validate (o : Options) : Except InvalidSetting Unit := do
  requireExtension "convert.source_extension".toList o.sourceExtension
  requireExtension "convert.target_extension".toList o.targetExtension
  requireNonEmpty "convert.macro_library".toList o.macroLibrary

/-- An extension without a dot in front. -/
def stripDot (extension : Text) : Text := (Text.stripStart? ['.'] extension).getD extension

/-- The options with extensions that have no dot in front. -/
def Options.normalize (o : Options) : Options :=
  { o with
    sourceExtension := stripDot o.sourceExtension
    targetExtension := stripDot o.targetExtension }

/-- The settings in a configuration file, as they are written. -/
structure RawSettings where
  inputDirectory : Option Text
  outputDirectory : Option Text
  options : Options
  deriving DecidableEq, Repr

namespace RawSettings

/-- The items of a section by the names of its fields.  A section may also be an array, which
    gives its fields in order, and a moment counts as a section without any of the fields. -/
def fields? (names : List Text) : Toml.Item → Option (List (Option Toml.Item))
  | .table _ entries => some (names.map (Toml.Entries.get? entries))
  | .array items => some (names.zipIdx.map fun (_, i) => items[i]?)
  | .tables elements =>
    -- The newest table stands first, and the fields are taken in the order of writing.
    some (names.zipIdx.map fun (_, i) => elements.reverse[i]?.map (Toml.Item.table .written))
  | .moment => some (names.map fun _ => none)
  | .text _ => none
  | .scalar => none

/-- The text of a field.  A field that is there has to be a text. -/
def text? : Option Toml.Item → Option (Option Text)
  | none => some none
  | some (.text t) => some (some t)
  | some _ => none

/-- The texts of a section's fields. -/
def readSection? (names : List Text) (item : Option Toml.Item) : Option (List (Option Text)) :=
  match item with
  | none => some (names.map fun _ => none)
  | some item => (fields? names item).bind (List.mapM text?)

/-- The settings in a document.  Keys that are no settings are skipped. -/
def ofEntries? (entries : Toml.Entries) : Option RawSettings := do
  let paths ← readSection? ["input_dir".toList, "output_dir".toList] (entries.get? "paths".toList)
  let convert ← readSection?
    ["source_extension".toList, "target_extension".toList, "macro_library".toList]
    (entries.get? "convert".toList)
  let base : Options := {}
  -- Each section gives as many fields as it has names.
  match paths, convert with
  | [inputDirectory, outputDirectory], [source, target, library] =>
    return {
      inputDirectory, outputDirectory
      options := {
        sourceExtension := source.getD base.sourceExtension
        targetExtension := target.getD base.targetExtension
        macroLibrary := library.getD base.macroLibrary } }
  | _, _ => none

/-- The settings in the text of a configuration file. -/
def ofText? (t : Text) : Option RawSettings := (Toml.parse? t).bind ofEntries?

end RawSettings

end TemploTwig
