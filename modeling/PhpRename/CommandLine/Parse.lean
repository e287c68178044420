import PhpRename.CommandLine.Basic

/-!
# Reading the command line

Words are read from left to right, first up to the name of a command and then its arguments. An option
waits for the next word as its value; the value is looked at when the following word has been told
apart, or at the end. A request for help ends the reading where it is met, and so does a fault.
-/

set_option autoImplicit false

namespace PhpRename.CommandLine

/-- What a word is. -/
inductive Word where
  /-- `--`, after which all words are plain. -/
  | terminator
  /-- `--name` or `--name=value`. -/
  | long (name : String) (value : Option String)
  /-- A hyphen and a letter, perhaps with more letters. -/
  | short (letter : Char)
  | plain (text : String)
  deriving DecidableEq, Repr

/-- Tells what a word is. -/
def Word.of (text : String) : Word :=
  match text.toList with
  | ['-', '-'] => .terminator
  | '-' :: '-' :: rest =>
    let value := rest.dropWhile (· != '=')
    .long (String.ofList (rest.takeWhile (· != '=')))
      (if value.isEmpty then none else some (String.ofList value.tail))
  | '-' :: letter :: _ => .short letter
  | _ => .plain text

/-- What help is about. -/
inductive Topic where
  | program
  | command (c : Command)
  /-- The help command itself. -/
  | help
  deriving DecidableEq, Repr

/-- Why reading ends before there is a request. -/
inductive Stop where
  /-- The words make no command line. -/
  | misuse
  | help (topic : Topic) (long : Bool)
  | version
  deriving DecidableEq, Repr

/-- The options of one level: those before the command or those after it. -/
structure Level where
  settings : Settings := {}
  /-- The last option, whose value is missing or not looked at yet. -/
  pending : Option (Flag × Option String) := none
  deriving DecidableEq, Repr

namespace Level

/-- Whether the next word may be the value of an option. -/
def awaited? (l : Level) : Option Flag :=
  match l.pending with
  | some (flag, none) => some flag
  | _ => none

/-- Looks at the value of the last option. -/
def settle (l : Level) : Except Stop Settings :=
  match l.pending with
  | none => .ok l.settings
  | some (_, none) => .error .misuse
  | some (flag, some value) =>
    match l.settings.set? flag value with
    | some settings => .ok settings
    | none => .error .misuse

/-- Reads an option, with its value when that is attached to it. -/
def option (l : Level) (flag : Flag) (value : Option String) : Except Stop Level := do
  let settings ← l.settle
  match value with
  | none => return ⟨settings, some (flag, none)⟩
  | some value =>
    match settings.set? flag value with
    | some settings => return ⟨settings, none⟩
    | none => throw .misuse

/-- Ends the reading with help or version, once the last option is in order. -/
def stop {α : Type} (l : Level) (reason : Stop) : Except Stop α := do
  let _ ← l.settle
  throw reason

/-- Reads an option or a request for help. -/
def long (l : Level) (topic : Topic) (name : String) (value : Option String) : Except Stop Level :=
  match Flag.ofName? name with
  | some flag => l.option flag value
  | none =>
    if value.isSome then .error .misuse
    else if name == "help" then l.stop (.help topic true)
    else if name == "version" && topic == .program then l.stop .version
    else .error .misuse

/-- Reads a short option; there is help, and before the command the version. -/
def short (l : Level) (topic : Topic) (letter : Char) : Except Stop Level :=
  if letter == 'h' then l.stop (.help topic false)
  else if letter == 'V' && topic == .program then l.stop .version
  else .error .misuse

end Level

/-- Reads the words after the help command. -/
def readHelp : List String → Stop
  | [] => .help .program true
  | ["help"] => .help .help true
  | [name] => (Command.ofName? name).elim .misuse fun c => .help (.command c) true
  | _ => .misuse

/-- Reads the words before a command: the options, the command and the words after it. -/
def readProgram (l : Level) : List String → Except Stop (Level × Command × List String)
  | [] => .error .misuse
  | word :: rest =>
    match Word.of word, l.awaited? with
    | .terminator, _ => .error .misuse
    | .long name value, _ => do readProgram (← l.long .program name value) rest
    | .short letter, _ => do readProgram (← l.short .program letter) rest
    | .plain value, some flag => readProgram { l with pending := some (flag, some value) } rest
    | .plain name, none =>
      match Command.ofName? name with
      | some c => .ok (l, c, rest)
      | none => .error (if name == "help" then readHelp rest else .misuse)

/-- Adds an argument to those of a command. -/
def addArgument (c : Command) (args : List String) (arg : String) : Except Stop (List String) :=
  if c.takesPath args.length && arg.isEmpty then .error .misuse else .ok (args ++ [arg])

/-- Reads the words after a command: the options and the arguments. -/
def readCommand (c : Command) (l : Level) (args : List String) :
    List String → Except Stop (Settings × List String)
  | [] => do return (← l.settle, args)
  | word :: rest =>
    match Word.of word, l.awaited? with
    | .terminator, _ => do
      let settings ← l.settle
      return (settings, ← rest.foldlM (addArgument c) args)
    | .long name value, _ => do readCommand c (← l.long (.command c) name value) args rest
    | .short letter, _ => do readCommand c (← l.short (.command c) letter) args rest
    | .plain value, some flag => readCommand c { l with pending := some (flag, some value) } args rest
    | .plain arg, none => do
      let settings ← l.settle
      readCommand c ⟨settings, none⟩ (← addArgument c args arg) rest

/-- A command line that has been understood. -/
structure Invocation where
  settings : Settings
  refactoring : Refactoring
  paths : List Path
  deriving DecidableEq, Repr

/-- Reads a command line. -/
def parse (words : List String) : Except Stop Invocation := do
  let (outer, c, rest) ← readProgram {} words
  let (inner, args) ← readCommand c {} [] rest
  match c.request? args with
  | none => throw .misuse
  | some (refactoring, paths) =>
    return ⟨inner.orElse (← outer.settle), refactoring, paths⟩

end PhpRename.CommandLine
