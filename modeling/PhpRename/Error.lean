import PhpRename.Bindings.Basic
import PhpRename.Files.Tree
import PhpRename.Json.Value
import PhpRename.Name.Basic

/-!
# Errors that end a run

Every error has a wording and an exit code, and can be shown as a JSON document.
-/

set_option autoImplicit false

namespace PhpRename

/-- The version of the form of JSON documents. -/
def schemaVersion : String := "1"

/-- The classes of errors, by exit code. -/
inductive ExitCode where
  | invalidArguments
  | resolution
  | apply
  | internal
  deriving DecidableEq, Repr

/-- The number of an exit code. -/
def ExitCode.toNat : ExitCode → Nat
  | invalidArguments => 2
  | resolution => 3
  | apply => 4
  | internal => 10

/-- An error that ends a run. -/
inductive RunError where
  /-- The caller's arguments are refused. -/
  | invalidArguments (message : String)
  /-- The run is not set up to start. -/
  | configuration (message : String)
  /-- A named input does not exist. -/
  | fileNotFound (path : String)
  /-- Changes cannot be carried out. -/
  | apply (message : String) (file : Option String)
  /-- The state is unexpected. -/
  | internal (message : String)
  deriving DecidableEq, Repr

namespace RunError

/-- The wording of an error. -/
def message : RunError → String
  | invalidArguments m => "invalid arguments: " ++ m
  | configuration m => "configuration error: " ++ m
  | fileNotFound p => "file not found: " ++ p
  | apply m _ => "apply error: " ++ m
  | internal m => "internal error: " ++ m

/-- The exit code of an error. -/
def exitCode : RunError → ExitCode
  | invalidArguments _ => .invalidArguments
  | configuration _ => .invalidArguments
  | fileNotFound _ => .resolution
  | apply _ _ => .apply
  | internal _ => .internal

/-- The file that an error is about. -/
def file? : RunError → Option String
  | fileNotFound p => some p
  | apply _ f => f
  | _ => none

/-- An error as a JSON document. -/
def toJson (e : RunError) : JsonValue :=
  .object
    [("status", .text "error"),
      ("schema_version", .text schemaVersion),
      ("error", .object
        ([("code", .number e.exitCode.toNat), ("message", .text e.message)] ++
          (e.file?.map fun f => ("file", JsonValue.text f)).toList))]

/-- Bindings that are not set up are a matter of configuration. -/
def ofBindings (e : BindingsError) : RunError := .configuration e.message

/-- A refused name is a matter of arguments. -/
def ofName (f : Name.Fault) : RunError := .invalidArguments f.message

end RunError

/-- A file that cannot be read while it is taken in. -/
structure ReadFailure where
  path : Path
  /-- Whether the file does not exist. -/
  isMissing : Bool
  cause : String
  deriving DecidableEq, Repr

namespace ReadFailure

/-- The failure of a file operation. -/
def ofFileError (path : Path) (e : FileError) : ReadFailure := ⟨path, e == .notFound, e.message⟩

/-- The wording of a failure. -/
def message (f : ReadFailure) : String := "failed to read " ++ f.path.text ++ ": " ++ f.cause

/-- A missing file is an error of its own; any other failure is unexpected. -/
def toRunError (f : ReadFailure) : RunError :=
  if f.isMissing then .fileNotFound f.path.text else .internal f.message

end ReadFailure

end PhpRename
