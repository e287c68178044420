import PhpRename.CommandLine.Help
import PhpRename.Config
import PhpRename.Run

/-!
# Carrying out a command line

A command line is read, the configuration is merged with it, and the run is carried out on the file
tree. What is printed and the exit code are part of the result. An option wins over the configuration
file, and that one over the default.
-/

set_option autoImplicit false

namespace PhpRename.CommandLine

/-- What the program leaves behind besides the files. -/
structure Output where
  exitCode : Nat
  out : String := ""
  err : String := ""
  deriving DecidableEq, Repr

/-- The end of a program that has no request to carry out. -/
def Stop.output : Stop → Output
  | misuse => { exitCode := 2, err := misuseText }
  | help topic long => { exitCode := 0, out := topic.text long }
  | version => { exitCode := 0, out := versionText }

/-- The end of a program with an error, in the format that is asked for. -/
def errorOutput (format : Format) (e : RunError) : Output :=
  match format with
  | .json => { exitCode := e.exitCode.toNat, out := e.toJson.render }
  | .text => { exitCode := e.exitCode.toNat, err := "phpshift: " ++ e.message ++ "\n" }

/-- The end of a program with a report. -/
def reportOutput (format : Format) (r : RunResult) : Output :=
  match format with
  | .json => { exitCode := r.report.exitCode, out := r.toJson.render }
  | .text => { exitCode := r.report.exitCode, out := r.report.toText }

namespace Invocation

/-- The format of the report. -/
def format (i : Invocation) : Format := i.settings.format.getD .text

/-- The configuration: of the named file, or of the working directory. -/
def loadConfig (i : Invocation) (t : FileTree) : Except ConfigError Config :=
  match i.settings.config with
  | some path => Config.load t path
  | none => Config.loadFrom t t.workingPath

/-- The run that a command line and a configuration ask for. -/
def request (i : Invocation) (config : Config) : RunRequest where
  refactoring := i.refactoring
  mode := some ((i.settings.mode <|> config.mode).getD .conservative)
  paths := i.paths
  selection := config.selection

/-- Carries out what a command line asks for. -/
def execute (i : Invocation) (process : Nat) (t : FileTree) : FileTree × Output :=
  match i.loadConfig t with
  | .error e => (t, errorOutput i.format e.toRunError)
  | .ok config =>
    match (i.request config).run process t with
    | (t, .ok result) => (t, reportOutput i.format result)
    | (t, .error e) => (t, errorOutput i.format e)

end Invocation

/-- Carries out a command line on a file tree. -/
def execute (words : List String) (process : Nat) (t : FileTree) : FileTree × Output :=
  match parse words with
  | .error stop => (t, stop.output)
  | .ok invocation => invocation.execute process t

end PhpRename.CommandLine
