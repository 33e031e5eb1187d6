import TemploTwig.Settings.Basic

/-!
# Command line arguments

Options have a long name and, most of them, a short one.  A value stands behind its option, is
joined to the long name by `=`, or follows the short name directly.  Short flags may be bundled.

* `Arguments`: what a run is asked to do
* `Command`: a run, or a question about the program
* `Command.parse?`: the command that a list of arguments gives
-/

namespace TemploTwig

/-- What a run is asked to do. -/
structure Arguments where
  configuration : Option Text := none
  inputDirectory : Option Text := none
  outputDirectory : Option Text := none
  /-- Convert, but write nothing. -/
  check : Bool := false
  verbose : Bool := false
  deriving DecidableEq, Repr

/-- The directories that the arguments name. -/
def Arguments.overrides (a : Arguments) : Overrides := ⟨a.inputDirectory, a.outputDirectory⟩

/-- An option of the command line. -/
inductive CommandOption where
  | configuration
  | input
  | output
  | check
  | verbose
  | help
  | version
  deriving DecidableEq, Repr

namespace CommandOption

/-- All options. -/
def all : List CommandOption := [configuration, input, output, check, verbose, help, version]

/-- The name behind two dashes. -/
def long : CommandOption → Text
  | configuration => "config".toList
  | input => "input".toList
  | output => "output".toList
  | check => "check".toList
  | verbose => "verbose".toList
  | help => "help".toList
  | version => "version".toList

/-- The letter behind one dash. -/
def short? : CommandOption → Option Char
  | configuration => some 'c'
  | input => some 'i'
  | output => some 'o'
  | check => none
  | verbose => some 'v'
  | help => some 'h'
  | version => some 'V'

/-- Does the option take a value? -/
def takesValue : CommandOption → Bool
  | configuration | input | output => true
  | check | verbose | help | version => false

/-- The option with a long name. -/
def ofLong? (name : Text) : Option CommandOption := all.find? (·.long = name)

/-- The option with a short name. -/
def ofShort? (letter : Char) : Option CommandOption := all.find? (·.short? = some letter)

end CommandOption

/-- A run, or a question about the program. -/
inductive Command where
  | convert (arguments : Arguments)
  | showHelp
  | showVersion
  deriving DecidableEq, Repr

namespace Command

/-- Give a setting that has none yet.  An empty value is none. -/
def setOnce? (value : Text) : Option Text → Option (Option Text)
  | none => if value = [] then none else some (some value)
  | some _ => none

/-- The arguments with a value given to an option.  Nothing if the option already has one. -/
def withValue? (a : Arguments) (value : Text) : CommandOption → Option Arguments
  | .configuration =>
    (setOnce? value a.configuration).map fun configuration => { a with configuration }
  | .input =>
    (setOnce? value a.inputDirectory).map fun inputDirectory => { a with inputDirectory }
  | .output =>
    (setOnce? value a.outputDirectory).map fun outputDirectory => { a with outputDirectory }
  | _ => none

/-- What a flag leads to: arguments to go on with, or a question that ends the reading. -/
inductive Progress where
  | goOn (arguments : Arguments)
  | stop (command : Command)

/-- The effect of a flag.  Nothing if it was given before. -/
def withFlag? (a : Arguments) : CommandOption → Option Progress
  | .check => if a.check then none else some (.goOn { a with check := true })
  | .verbose => if a.verbose then none else some (.goOn { a with verbose := true })
  | .help => some (.stop .showHelp)
  | .version => some (.stop .showVersion)
  | _ => none

/-- May an argument be the value of the option in front of it?  It may not look like an option. -/
def isValue : Text → Bool
  | ['-'] => true
  | '-' :: _ => false
  | _ => true

/-- What a bundle of short options leads to. -/
inductive Bundle where
  | goOn (arguments : Arguments)
  | stop (command : Command)
  /-- The last option of the bundle needs the next argument as its value. -/
  | pending (arguments : Arguments) (option : CommandOption)

/-- Read a bundle of short options.  What follows an option with a value is that value, behind an
    optional `=`. -/
def readBundle? (a : Arguments) : Text → Option Bundle
  | [] => some (.goOn a)
  | letter :: rest =>
    (CommandOption.ofShort? letter).bind fun option =>
      if option.takesValue then
        match rest with
        -- The value is the next argument.
        | [] => some (.pending a option)
        | '=' :: value => (withValue? a value option).map .goOn
        | value => (withValue? a value option).map .goOn
      else
        match withFlag? a option with
        | some (.goOn a) => readBundle? a rest
        -- A question is answered whatever else the bundle holds.
        | some (.stop command) => some (.stop command)
        | none => none

/-- Read a long option, from what follows its dashes. -/
def readLong? (a : Arguments) (body : Text) : Option Bundle :=
  let (name, value?) : Text × Option Text := match Text.cut? ['='] body with
    | some (name, value) => (name, some value)
    | none => (body, none)
  (CommandOption.ofLong? name).bind fun option =>
    match option.takesValue, value? with
    | true, some value => (withValue? a value option).map .goOn
    | true, none => some (.pending a option)
    -- A flag takes no value.
    | false, some _ => none
    | false, none =>
      (withFlag? a option).map fun
        | .goOn a => .goOn a
        | .stop command => .stop command

/-- Read one argument that is no value. -/
def readArgument? (a : Arguments) (argument : Text) : Option Bundle :=
  match argument with
  | '-' :: '-' :: body => readLong? a body
  | '-' :: c :: rest => readBundle? a (c :: rest)
  | _ => none

/-- Read arguments from left to right.  `pending` is the option that waits for its value. -/
def read? : Arguments → (pending : Option CommandOption) → List Text → Option Command
  | a, none, [] => some (.convert a)
  | _, some _, [] => none
  | a, some option, argument :: rest =>
    if isValue argument then (withValue? a argument option).bind fun a => read? a none rest
    else none
  | a, none, argument :: rest =>
    if argument = "--".toList then
      -- Only arguments without a name could follow the dashes, and there are none.
      if rest = [] then some (.convert a) else none
    else
      match readArgument? a argument with
      | some (.goOn a) => read? a none rest
      | some (.pending a option) => read? a (some option) rest
      | some (.stop command) => some command
      | none => none

/-- The command that a list of arguments gives.  Nothing if they are not understood. -/
def parse? (arguments : List Text) : Option Command := read? {} none arguments

end Command

end TemploTwig
