import PhpRename.Edit.Basic
import PhpRename.Files.Selection
import PhpRename.Toml.Document

/-!
# Configuration files

A configuration file may set the edit mode, the extensions of source files and the patterns of the
paths that are left out, in its table `phpshift`. What it does not set keeps its default, and keys that
mean nothing here are ignored.
-/

set_option autoImplicit false

namespace PhpRename

/-- The settings of a configuration file. -/
structure Config where
  /-- The edit mode of runs that ask for none. -/
  mode : Option EditMode := none
  selection : Selection := {}
  deriving DecidableEq, Repr

/-- Why a configuration file is refused. -/
inductive ConfigError where
  | read (path : Path) (cause : FileError)
  | parse (path : Path)
  deriving DecidableEq, Repr

/-- The wording of a refusal. -/
def ConfigError.message : ConfigError → String
  | read p cause => "failed to read config file " ++ p.text ++ ": " ++ cause.message
  | parse p => "failed to parse config file " ++ p.text ++ ": TOML parse error"

/-- A refused configuration file ends a run. -/
def ConfigError.toRunError (e : ConfigError) : RunError := .configuration e.message

namespace Config

open Toml (Value Entries)

/-- Whether a value is a list or table that holds nothing. -/
def holdsNothing : Value → Bool
  | .list [] => true
  | .table _ [] => true
  | _ => false

/-- The edit mode that a value names: its name as a text, or as the only key of a table that has
nothing to add. -/
def mode? : Value → Option EditMode
  | .text name => EditMode.ofName? name
  | .table _ [(name, value)] => if holdsNothing value then EditMode.ofName? name else none
  | _ => none

/-- The text of a value that is one. -/
def text? : Value → Option String
  | .text s => some s
  | _ => none

/-- The texts of a list of texts. -/
def texts? : Value → Option (List String)
  | .list values => values.mapM text?
  | _ => none

/-- The settings of three values, each of which may be missing; none if one has the wrong form. -/
def ofValues? (mode extensions exclude : Option Value) : Option Config := do
  let defaults : Selection := {}
  let mode ← mode.mapM mode?
  let extensions ← extensions.mapM texts?
  let exclude ← exclude.mapM texts?
  return ⟨mode, ⟨extensions.getD defaults.extensions, exclude.getD defaults.exclude⟩⟩

/-- The settings of a table by their keys, or of a list by their places. -/
def ofValue? : Value → Option Config
  | .table _ entries =>
    ofValues? (entries.lookup "mode") (entries.lookup "extensions") (entries.lookup "exclude")
  | .list values => ofValues? values[0]? values[1]? values[2]?
  | .rows tables =>
    let row (i : Nat) : Option Value := tables[i]?.map (.table .header ·)
    ofValues? (row 0) (row 1) (row 2)
  | _ => none

/-- The settings of a document. -/
def ofDocument? (document : Entries) : Option Config :=
  match document.lookup "phpshift" with
  | none => some {}
  | some value => ofValue? value

/-- Reads a configuration file. -/
def load (t : FileTree) (path : Path) : Except ConfigError Config := do
  let content ← (t.readText path).mapError (.read path)
  match (Toml.parse? content).bind ofDocument? with
  | some config => .ok config
  | none => .error (.parse path)

/-- The name under which a configuration file is looked for. -/
def fileName : String := "phpshift.toml"

/-- Reads the configuration file of a directory; without one, all settings have their defaults. -/
def loadFrom (t : FileTree) (dir : Path) : Except ConfigError Config :=
  let path := dir.push (.ofText fileName)
  if t.isFile path then load t path else .ok {}

end Config

end PhpRename
