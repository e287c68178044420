import PhpRename.Edit.Changes
import PhpRename.Edit.Lines
import PhpRename.Error
import PhpRename.Hash.Sha256

/-!
# Carrying out changes on files

A file's permitted edits are carried out together, then the file is moved. A file whose changes
cannot be carried out is reported, and the others go on. A file is written through a temporary
sibling that takes its place.
-/

set_option autoImplicit false

namespace PhpRename

/-- Why the changes of a file are not carried out. -/
inductive ApplyError where
  | edit (path : Path) (fault : EditFault)
  /-- The content is not the one that the edits were made for. -/
  | contentChanged (path : Path)
  /-- The place that the file is to be moved to is taken. -/
  | targetExists (path target : Path)
  | file (path : Path) (cause : FileError)
  deriving DecidableEq, Repr

namespace ApplyError

/-- The file that an error is about. -/
def path : ApplyError → Path
  | edit p _ => p
  | contentChanged p => p
  | targetExists p _ => p
  | file p _ => p

/-- The wording of an error. -/
def message : ApplyError → String
  | edit p ⟨.conflict, q⟩ =>
    "conflicting edits in " ++ p.text ++ " at line " ++ toString q.line ++ ", column " ++ toString q.column
  | edit p ⟨.duplicate, q⟩ =>
    "more than one edit proposed at " ++ p.text ++ ":" ++ toString q.line ++ ":" ++ toString q.column
  | edit p ⟨.outOfBounds, q⟩ =>
    "edit at " ++ p.text ++ ":" ++ toString q.line ++ ":" ++ toString q.column ++ " falls outside the file"
  | contentChanged p => p.text ++ " changed on disk after it was scanned"
  | targetExists p target => "cannot move " ++ p.text ++ " to " ++ target.text ++ ": destination exists"
  | file p cause => "IO error on " ++ p.text ++ ": " ++ cause.message

/-- The error as one that ends a run. -/
def toRunError (e : ApplyError) : RunError := .apply e.message (some e.path.text)

end ApplyError

/-- What happened to a file. -/
structure FileOutcome where
  /-- The path of the file before it was moved. -/
  path : Path
  /-- The number of edits that were carried out. -/
  applied : Nat := 0
  contentChanged : Bool := false
  movedTo : Option Path := none
  /-- The lines of the edits that the mode withholds, ascending and each once. -/
  withheldLines : List Nat := []
  /-- The move that the mode withholds. -/
  withheldMove : Option Path := none
  deriving DecidableEq, Repr

namespace FileOutcome

/-- Whether the file changed in content or place. -/
def changed (o : FileOutcome) : Bool := o.contentChanged || o.movedTo.isSome

/-- The number of edits and moves to report. -/
def withheldCount (o : FileOutcome) : Nat :=
  o.withheldLines.length + if o.withheldMove.isSome then 1 else 0

end FileOutcome

/-- What happened to the files of a run. -/
structure ApplySummary where
  outcomes : List FileOutcome := []
  failures : List ApplyError := []
  deriving DecidableEq, Repr

namespace ApplySummary

/-- The number of files that changed. -/
def changedCount (s : ApplySummary) : Nat := (s.outcomes.filter (·.changed)).length

/-- The number of edits and moves to report. -/
def withheldCount (s : ApplySummary) : Nat := s.outcomes.foldl (fun n o => n + o.withheldCount) 0

end ApplySummary

namespace FileTree

/-- The name of the temporary sibling of a file, made from its name as it is shown; `process` tells runs
apart. -/
def temporaryName (name : Bytes) (process : Nat) : Bytes :=
  Utf8.encode ("." ++ Utf8.decodeLossy name ++ "." ++ toString process ++ ".phpshift.tmp")

/-- The temporary sibling through which a file is written. -/
def temporaryPath (p : Path) (process : Nat) : Path :=
  (if p.fileName?.isSome then p.pop else p).push ⟨temporaryName (p.fileName?.getD []) process⟩

/-- Writes a file as a whole: a temporary sibling takes its place, or is removed again. -/
def replace (t : FileTree) (process : Nat) (p : Path) (content : Bytes) :
    FileTree × Except FileError Unit :=
  let temporary := temporaryPath p process
  match t.write temporary content with
  | .error e => (t, .error e)
  | .ok written =>
    match written.rename temporary p with
    | .ok renamed => (renamed, .ok ())
    | .error e => ((written.removeFile temporary).toOption.getD written, .error e)

/-- Makes the directories above a path that are missing. -/
def makeRoom (t : FileTree) (p : Path) : FileTree × Except FileError Unit :=
  match p.parent? with
  | some dir => t.makePath dir
  | none => (t, .ok ())

/-- Moves a file to a place that is free, making the directories above it. -/
def moveFile (t : FileTree) (p target : Path) : FileTree × Except ApplyError Unit :=
  if t.has target then (t, .error (.targetExists p target))
  else
    match t.makeRoom target with
    | (t, .error e) => (t, .error (.file target e))
    | (t, .ok ()) =>
      match t.rename p target with
      | .ok t => (t, .ok ())
      | .error e => (t, .error (.file p e))

/-- The lines of edits, ascending and each once. -/
def linesOf (edits : List Edit) : List Nat := ((edits.map (·.line)).mergeSort (· ≤ ·)).eraseDups

/-- What edits make of a file's content, when it is the one that they were made for. -/
def rewrite (t : FileTree) (c : FileChanges) (edits : List Edit) : Except ApplyError (Bytes × Bytes) := do
  let content ← (t.read c.path).mapError (.file c.path)
  if c.digest.any (· != Sha256.hexDigest content) then .error (.contentChanged c.path)
  else
    let rewritten ← (Edit.applyAll edits content).mapError (.edit c.path)
    .ok (content, rewritten)

/-- Carries out edits on a file, and tells whether the content changed. A file without edits is not
read. -/
def applyEdits (t : FileTree) (process : Nat) (c : FileChanges) (edits : List Edit) :
    FileTree × Except ApplyError Bool :=
  if edits.isEmpty then (t, .ok false)
  else
    match t.rewrite c edits with
    | .error e => (t, .error e)
    | .ok (content, rewritten) =>
      if rewritten == content then (t, .ok false)
      else
        match t.replace process c.path rewritten with
        | (t, .ok ()) => (t, .ok true)
        | (t, .error e) => (t, .error (.file c.path e))

/-- Carries out the move of a file, or withholds it, once its edits are done. -/
def applyMove (t : FileTree) (mode : EditMode) (c : FileChanges) (outcome : FileOutcome) :
    FileTree × Except ApplyError FileOutcome :=
  match c.move? with
  | none => (t, .ok outcome)
  | some target =>
    if mode.permitsMove then
      match t.moveFile c.path target with
      | (t, .ok ()) => (t, .ok { outcome with movedTo := some target })
      | (t, .error e) => (t, .error e)
    else (t, .ok { outcome with withheldMove := some target })

/-- Carries out the changes of a file that a mode permits. Two edits at one place are refused even
where the mode withholds one of them. -/
def applyFile (t : FileTree) (process : Nat) (mode : EditMode) (c : FileChanges) :
    FileTree × Except ApplyError FileOutcome :=
  match Edit.duplicate? [] c.edits with
  | some fault => (t, .error (.edit c.path fault))
  | none =>
    match t.applyEdits process c (c.permitted mode) with
    | (t, .error e) => (t, .error e)
    | (t, .ok changed) =>
      t.applyMove mode c
        { path := c.path
          applied := (c.permitted mode).length
          contentChanged := changed
          withheldLines := linesOf (c.withheld mode) }

/-- Carries out the changes of one more file, for a summary of those before it. -/
def applyNext (process : Nat) (mode : EditMode) (state : FileTree × ApplySummary) (c : FileChanges) :
    FileTree × ApplySummary :=
  if c.isEmpty then state
  else
    match state.1.applyFile process mode c with
    | (t, .ok outcome) => (t, { state.2 with outcomes := state.2.outcomes ++ [outcome] })
    | (t, .error e) => (t, { state.2 with failures := state.2.failures ++ [e] })

/-- Carries out all changes, in the order of paths. -/
def applyAll (t : FileTree) (process : Nat) (mode : EditMode) (changes : Changes) :
    FileTree × ApplySummary :=
  changes.files.foldl (applyNext process mode) (t, {})

end FileTree

end PhpRename
