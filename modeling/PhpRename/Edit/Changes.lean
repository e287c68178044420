import PhpRename.Edit.Basic
import PhpRename.Path.Basic

/-!
# Pending changes

What a run would change, file by file and in the order of paths: edits, a move, and the digest of
the content that the edits were made for. Nothing is checked here; the same place may be edited
twice.
-/

set_option autoImplicit false

namespace PhpRename

/-- What is pending for one file. -/
structure FileChanges where
  path : Path
  /-- The edits, in the order in which they were proposed. -/
  edits : List Edit := []
  /-- Where the file is to be moved. -/
  moveTo : Option Path := none
  /-- The digest of the content that the edits were made for. -/
  digest : Option String := none
  deriving DecidableEq, Repr

namespace FileChanges

/-- Whether nothing is to be done. -/
def isEmpty (c : FileChanges) : Bool := c.edits.isEmpty && c.moveTo.isNone

/-- The edits that a mode carries out. -/
def permitted (c : FileChanges) (mode : EditMode) : List Edit := c.edits.filter (mode.permits ·.confidence)

/-- The edits that a mode only reports. -/
def withheld (c : FileChanges) (mode : EditMode) : List Edit := c.edits.filter (!mode.permits ·.confidence)

/-- The place that the file is to be moved to, when it is another one. -/
def move? (c : FileChanges) : Option Path := c.moveTo.filter (!·.same c.path)

end FileChanges

/-- The pending changes of a run, by path. -/
structure Changes where
  files : List FileChanges := []
  deriving DecidableEq, Repr

namespace Changes

/-- Changes the entry of a path in a list ordered by path, making one where there is none. -/
def updateIn (path : Path) (change : FileChanges → FileChanges) : List FileChanges → List FileChanges
  | [] => [change { path }]
  | c :: rest =>
    match path.compare c.path with
    | .lt => change { path } :: c :: rest
    | .eq => change c :: rest
    | .gt => c :: updateIn path change rest

/-- Changes the entry of a path, making one where there is none. -/
def update (s : Changes) (path : Path) (change : FileChanges → FileChanges) : Changes :=
  ⟨updateIn path change s.files⟩

/-- Proposes an edit. -/
def addEdit (s : Changes) (path : Path) (e : Edit) : Changes :=
  s.update path fun c => { c with edits := c.edits ++ [e] }

/-- Asks for a file to be moved, in place of an earlier request. -/
def addMove (s : Changes) (path target : Path) : Changes :=
  s.update path fun c => { c with moveTo := some target }

/-- Remembers the digest of a file's content, when changes are pending for it. -/
def expect (s : Changes) (path : Path) (digest : String) : Changes :=
  ⟨s.files.map fun c => if c.path.same path then { c with digest := some digest } else c⟩

/-- What is pending for a path. -/
def get? (s : Changes) (path : Path) : Option FileChanges := s.files.find? (·.path.same path)

/-- The number of proposed edits. -/
def editCount (s : Changes) : Nat := s.files.foldl (fun n f => n + f.edits.length) 0

/-- Whether nothing is to be done. -/
def isEmpty (s : Changes) : Bool := s.files.all (·.isEmpty)

end Changes

end PhpRename
