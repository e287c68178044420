import PhpRename.Edit.Basic
import PhpRename.Refactoring.Basic

/-!
# Commands and options

The commands of the program with their arguments, and the options that may stand before or after the
name of a command. What stands after it wins (`Settings.orElse`).
-/

set_option autoImplicit false

namespace PhpRename.CommandLine

/-- How a run is reported. -/
inductive Format where
  | text
  | json
  deriving DecidableEq, Repr

/-- How much is logged. -/
inductive LogLevel where
  | trace
  | debug
  | info
  | warn
  | error
  deriving DecidableEq, Repr

/-- The options that take a value. -/
inductive Flag where
  | mode
  | format
  | logLevel
  | config
  deriving DecidableEq, Repr

/-- The name of an option. -/
def Flag.name : Flag → String
  | mode => "mode"
  | format => "format"
  | logLevel => "log-level"
  | config => "config"

/-- Every option, in the order in which they are listed. -/
def Flag.all : List Flag := [mode, format, logLevel, config]

/-- The option of a name. -/
def Flag.ofName? (name : String) : Option Flag := all.find? (·.name == name)

/-- The format of a name. -/
def Format.ofName? : String → Option Format
  | "text" => some text
  | "json" => some json
  | _ => none

/-- The level of a name. -/
def LogLevel.ofName? : String → Option LogLevel
  | "trace" => some trace
  | "debug" => some debug
  | "info" => some info
  | "warn" => some warn
  | "error" => some error
  | _ => none

/-- A path argument, which must not be empty. -/
def path? (text : String) : Option Path := if text.isEmpty then none else some (.ofText text)

/-- The values of the options; none stands for one that is not given. -/
structure Settings where
  mode : Option EditMode := none
  format : Option Format := none
  logLevel : Option LogLevel := none
  config : Option Path := none
  deriving DecidableEq, Repr

namespace Settings

/-- Whether an option is given. -/
def has (s : Settings) : Flag → Bool
  | .mode => s.mode.isSome
  | .format => s.format.isSome
  | .logLevel => s.logLevel.isSome
  | .config => s.config.isSome

/-- The settings with the value of an option as written, none where the value is not one of the
option's or the option is given already. -/
def set? (s : Settings) (flag : Flag) (value : String) : Option Settings :=
  if s.has flag then none
  else
    match flag with
    | .mode => do return { s with mode := some (← EditMode.ofName? value) }
    | .format => do return { s with format := some (← Format.ofName? value) }
    | .logLevel => do return { s with logLevel := some (← LogLevel.ofName? value) }
    | .config => do return { s with config := some (← path? value) }

/-- The settings, and for options that they lack those of others. -/
def orElse (s t : Settings) : Settings where
  mode := s.mode <|> t.mode
  format := s.format <|> t.format
  logLevel := s.logLevel <|> t.logLevel
  config := s.config <|> t.config

end Settings

/-- The commands. -/
inductive Command where
  | renameClass
  | renameMethod
  | renameFile
  deriving DecidableEq, Repr

/-- The name of a command. -/
def Command.name : Command → String
  | renameClass => "rename-class"
  | renameMethod => "rename-method"
  | renameFile => "rename-file"

/-- Every command, in the order in which they are listed. -/
def Command.all : List Command := [renameClass, renameMethod, renameFile]

/-- The command of a name. -/
def Command.ofName? (name : String) : Option Command := all.find? (·.name == name)

/-- What a command's arguments ask for: the refactoring, and one or more paths after its own
arguments. -/
def Command.request? (c : Command) (args : List String) : Option (Refactoring × List Path) :=
  let paths? (rest : List String) : Option (List Path) :=
    if rest.isEmpty then none else rest.mapM path?
  match c, args with
  | renameClass, old :: new :: rest => do return (.renameClass old new, ← paths? rest)
  | renameMethod, cls :: old :: new :: rest => do return (.renameMethod cls old new, ← paths? rest)
  | renameFile, old :: new :: rest => do
    return (.renameFile (← path? old) (← path? new), ← paths? rest)
  | _, _ => none

/-- Whether the argument at a place is a path. -/
def Command.takesPath (c : Command) (place : Nat) : Bool :=
  match c with
  | renameClass => 2 ≤ place
  | renameMethod => 3 ≤ place
  | renameFile => true

end PhpRename.CommandLine
