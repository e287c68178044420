import PhpRename.Files.Selection
import PhpRename.Refactoring.Scan
import PhpRename.Report

/-!
# Runs

A run checks its request, selects the files, scans them, carries out the changes that the edit mode
permits, and reports. Files that cannot be read or changed are reported and the run goes on; any
other problem ends it before a file is touched.
-/

set_option autoImplicit false

namespace PhpRename

/-- What a run is asked for. -/
structure RunRequest where
  refactoring : Refactoring
  /-- The edit mode, which has to be set. -/
  mode : Option EditMode
  /-- The files and directories to work on. -/
  paths : List Path
  selection : Selection := {}
  deriving DecidableEq, Repr

/-- What a run has done. -/
structure RunResult where
  report : Report
  refactoring : Refactoring
  deriving DecidableEq, Repr

/-- The JSON document of a run: its report, then its refactoring. -/
def RunResult.toJson (r : RunResult) : JsonValue := .object (r.report.fields ++ r.refactoring.fields)

/-- Checks the names of a refactoring and makes its paths absolute. -/
def Refactoring.prepare (refactoring : Refactoring) (t : FileTree) : Except RunError Refactoring :=
  let accept (fault? : String → Option Name.Reason) (name : String) : Except RunError Unit :=
    (Name.accept fault? name).mapError .ofName
  match refactoring with
  | renameClass old new => do
    accept Name.labelFault? old
    accept Name.classFault? new
    return renameClass old new
  | renameMethod cls old new => do
    accept Name.labelFault? (Name.short cls)
    accept Name.labelFault? old
    accept Name.methodFault? new
    return renameMethod cls old new
  | renameFile old new =>
    let source := t.absolute old
    let target := t.absolute new
    if !t.isFile source then .error (.fileNotFound source.text)
    else if t.has target then
      .error (.invalidArguments ("rename target already exists: " ++ target.text))
    else .ok (renameFile source target)

/-- The files to read: the selected ones and the file that is renamed. -/
def Refactoring.withRenamed (refactoring : Refactoring) (files : List Path) : List Path :=
  match refactoring with
  | renameFile old _ => if files.any (·.same old) then files else files ++ [old]
  | _ => files

namespace RunRequest

/-- Reads the files of a run: those that can be read, and the failures. -/
def readFiles (t : FileTree) (files : List Path) : List (Path × Bytes) × List ReadFailure :=
  files.foldr (fun path (sources, failures) =>
    match t.read path with
    | .ok content => ((path, content) :: sources, failures)
    | .error e => (sources, .ofFileError path e :: failures)) ([], [])

/-- An unreadable file in a report. -/
def reportFailure (f : ReadFailure) : Failure := ⟨f.path.text, ExitCode.apply.toNat, f.message⟩

/-- What a run works on: the edit mode, the checked refactoring and the files to read. -/
def plan (request : RunRequest) (t : FileTree) :
    Except RunError (EditMode × Refactoring × List Path) := do
  let mode ← match request.mode with
    | some mode => .ok mode
    | none => .error (.configuration "edit mode not set")
  let refactoring ← request.refactoring.prepare t
  let files ← request.selection.collect t request.paths
  return (mode, refactoring, refactoring.withRenamed files)

/-- Carries out a run. -/
def run (request : RunRequest) (process : Nat) (t : FileTree) :
    FileTree × Except RunError RunResult :=
  match request.plan t with
  | .error e => (t, .error e)
  | .ok (mode, refactoring, files) =>
    let (sources, unreadable) := readFiles t files
    let changes := refactoring.scan (.ofSources sources)
    let (t, summary) := t.applyAll process mode changes
    let report := (unreadable.map reportFailure).foldl Report.addFailure (.ofSummary mode summary)
    (t, .ok ⟨report, refactoring⟩)

end RunRequest

end PhpRename
