import PhpRename.Files.Apply
import PhpRename.Refactoring.Basic

/-!
# Reports

What a run tells: how many files changed, which possible changes the edit mode withheld, and which
files could not be processed, as text or as a JSON document.
-/

set_option autoImplicit false

namespace PhpRename

/-- A possible change that the edit mode withheld. -/
inductive Notice where
  | edit (file : String) (line : Nat)
  | move (file target : String)
  deriving DecidableEq, Repr

/-- A file that could not be processed. -/
structure Failure where
  file : String
  code : Nat
  message : String
  deriving DecidableEq, Repr

/-- The report of a run. -/
structure Report where
  mode : EditMode
  filesChanged : Nat
  editsApplied : Nat
  /-- The moved files, each with its old and its new path. -/
  moved : List (String × String)
  withheld : List Notice
  failures : List Failure
  deriving DecidableEq, Repr

namespace Report

/-- What is to be told about the withheld changes of a file. -/
def notices (o : FileOutcome) : List Notice :=
  o.withheldLines.map (.edit o.path.text ·) ++
    (o.withheldMove.map fun target => Notice.move o.path.text target.text).toList

/-- The report for a summary. -/
def ofSummary (mode : EditMode) (s : ApplySummary) : Report where
  mode := mode
  filesChanged := s.changedCount
  editsApplied := s.outcomes.foldl (fun n o => n + o.applied) 0
  moved := s.outcomes.filterMap fun o => o.movedTo.map fun target => (o.path.text, target.text)
  withheld := s.outcomes.flatMap notices
  failures := s.failures.map fun e => ⟨e.path.text, ExitCode.apply.toNat, e.message⟩

/-- The report with one more failure. -/
def addFailure (r : Report) (f : Failure) : Report := { r with failures := r.failures ++ [f] }

/-- Whether every file was processed. -/
def isComplete (r : Report) : Bool := r.failures.isEmpty

/-- The exit code of a run. -/
def exitCode (r : Report) : Nat := if r.isComplete then 0 else ExitCode.apply.toNat

/-- A count with the word for one or for several. -/
def counted (n : Nat) (one several : String) : String :=
  toString n ++ " " ++ if n == 1 then one else several

/-- A notice as text. -/
def noticeText : Notice → String
  | .edit file line => file ++ ":" ++ toString line
  | .move file target => file ++ " (move to " ++ target ++ ")"

/-- The lines of a report. -/
def lines (r : Report) : List String :=
  [counted r.filesChanged "file" "files" ++ " changed (" ++ r.mode.name ++ " mode)"] ++
    r.moved.map (fun m => "  moved " ++ m.1 ++ " -> " ++ m.2) ++
    (if r.withheld.isEmpty then []
      else
        (toString r.withheld.length ++ " possible " ++
            (if r.withheld.length == 1 then "change" else "changes") ++
            " not applied; review manually:") ::
          r.withheld.map fun n => "  " ++ noticeText n) ++
    (if r.failures.isEmpty then []
      else
        (counted r.failures.length "file" "files" ++ " could not be processed:") ::
          r.failures.map fun f => "  " ++ f.message)

/-- A report as text. -/
def toText (r : Report) : String := String.join (r.lines.map (· ++ "\n"))

/-- A notice as a JSON document. -/
def noticeJson : Notice → JsonValue
  | .edit file line => .object [("file", .text file), ("line", .number line)]
  | .move file target => .object [("file", .text file), ("move_to", .text target)]

/-- A failure as a JSON document. -/
def failureJson (f : Failure) : JsonValue :=
  .object [("file", .text f.file), ("code", .number f.code), ("message", .text f.message)]

/-- A moved file as a JSON document. -/
def movedJson (m : String × String) : JsonValue := .object [("from", .text m.1), ("to", .text m.2)]

/-- The fields of a report in its JSON document; moved files appear when there are some. -/
def fields (r : Report) : List (String × JsonValue) :=
  [("status", .text (if r.isComplete then "ok" else "partial")),
    ("schema_version", .text schemaVersion),
    ("mode", .text r.mode.name),
    ("files_changed", .number r.filesChanged),
    ("edits_applied", .number r.editsApplied)] ++
    (if r.moved.isEmpty then [] else [("moved", .list (r.moved.map movedJson))]) ++
    [("withheld", .list (r.withheld.map noticeJson)),
      ("failures", .list (r.failures.map failureJson))]

/-- A report as a JSON document. -/
def toJson (r : Report) : JsonValue := .object r.fields

end Report

/-- The fields of a refactoring in a JSON document. -/
def Refactoring.fields : Refactoring → List (String × JsonValue)
  | renameClass old new =>
    [("operation", .text "rename_class"), ("old", .text old), ("new", .text new)]
  | renameMethod cls old new =>
    [("operation", .text "rename_method"), ("class", .text cls), ("old", .text old),
      ("new", .text new)]
  | renameFile old new =>
    [("operation", .text "rename_file"), ("old", .text old.text), ("new", .text new.text)]

end PhpRename
