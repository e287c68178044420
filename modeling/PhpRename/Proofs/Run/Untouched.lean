import PhpRename.Proofs.Files.Apply
import PhpRename.Run

/-!
# Runs that change nothing

A run that ends in an error has not touched a file, and neither has one in timid mode
(`run_untouched`). In timid mode every edit and every move of a file is withheld, so that the report
tells all that the scan has proposed, but for files with two edits in one place.
-/

set_option autoImplicit false

namespace PhpRename

/-- No two edits start at the same place as long as none is found that does. -/
theorem Edit.duplicate?_eq_none_iff {seen : List Position} {edits : List Edit} :
    duplicate? seen edits = none ↔ (edits.map key).Nodup ∧ ∀ e ∈ edits, e.key ∉ seen := by
  induction edits generalizing seen with
  | nil => simp [duplicate?]
  | cons e rest ih =>
    rw [duplicate?]
    split
    · rename_i taken
      simp only [List.contains_eq_mem, decide_eq_true_eq] at taken
      exact ⟨nofun, fun h => absurd taken (h.2 e List.mem_cons_self)⟩
    · rename_i fresh
      simp only [List.contains_eq_mem, decide_eq_true_eq] at fresh
      rw [ih, List.map_cons, List.nodup_cons]
      constructor
      · rintro ⟨nodup, apart⟩
        refine ⟨⟨fun mem => ?_, nodup⟩, fun e' mem => ?_⟩
        · obtain ⟨e', mem, same⟩ := List.mem_map.1 mem
          exact apart e' mem (by rw [same]; exact List.mem_cons_self)
        · rcases List.mem_cons.1 mem with rfl | mem
          · exact fresh
          · exact fun h => apart e' mem (List.mem_cons_of_mem _ h)
      · rintro ⟨⟨new, nodup⟩, apart⟩
        refine ⟨nodup, fun e' mem h => ?_⟩
        rcases List.mem_cons.1 h with same | h
        · exact new (List.mem_map.2 ⟨e', mem, same⟩)
        · exact apart e' (List.mem_cons_of_mem _ mem) h

namespace FileTree

variable {t : FileTree} {process : Nat} {c : FileChanges} {s : ApplySummary}

/-! ## Timid mode -/

/-- The outcome of a file of which everything is withheld. -/
def withholding (c : FileChanges) : FileOutcome :=
  { path := c.path, withheldLines := linesOf c.edits, withheldMove := c.move? }

/-- **A file in timid mode** stays as it is. -/
theorem applyFile_timid (t : FileTree) (process : Nat) (c : FileChanges) :
    t.applyFile process .timid c =
      (t, match Edit.duplicate? [] c.edits with
        | some fault => .error (.edit c.path fault)
        | none => .ok (withholding c)) := by
  have permitted : c.permitted .timid = [] := by
    rw [FileChanges.permitted]
    exact List.filter_eq_nil_iff.2 fun e _ => Bool.false_ne_true
  have withheld : c.withheld .timid = c.edits := by
    rw [FileChanges.withheld]
    exact List.filter_eq_self.2 fun e _ => rfl
  rw [applyFile, permitted, withheld, applyEdits, withholding]
  cases Edit.duplicate? [] c.edits with
  | some fault => rfl
  | none =>
    simp only [List.isEmpty_nil, if_true, applyMove, EditMode.permitsMove]
    cases c.move? with
    | none => rfl
    | some target => rfl

/-- What is told about a file in timid mode, when its edits start at different places. -/
def proposals (c : FileChanges) : List Notice :=
  if (c.edits.map Edit.key).Nodup then Report.notices (withholding c) else []

/-- **One more file in timid mode.** -/
theorem applyNext_timid (t : FileTree) (process : Nat) (s : ApplySummary) (c : FileChanges) :
    (applyNext process .timid (t, s) c).1 = t ∧
      (applyNext process .timid (t, s) c).2.outcomes.flatMap Report.notices =
        s.outcomes.flatMap Report.notices ++ proposals c := by
  rw [applyNext]
  split
  · rename_i empty
    rw [FileChanges.isEmpty, Bool.and_eq_true, List.isEmpty_iff, Option.isNone_iff_eq_none] at empty
    obtain ⟨edits, still⟩ := empty
    have nothing : proposals c = [] := by
      simp [proposals, withholding, Report.notices, linesOf, edits, FileChanges.move?, still]
    exact ⟨rfl, by rw [nothing, List.append_nil]⟩
  · have nodup : Edit.duplicate? [] c.edits = none ↔ (c.edits.map Edit.key).Nodup := by
      rw [Edit.duplicate?_eq_none_iff]
      exact ⟨And.left, fun h => ⟨h, fun _ _ => List.not_mem_nil⟩⟩
    cases duplicate : Edit.duplicate? [] c.edits with
    | some fault =>
      have meet : ¬ (c.edits.map Edit.key).Nodup := by
        rw [← nodup, duplicate]
        exact Option.some_ne_none fault
      simp [applyFile_timid, duplicate, proposals, meet]
    | none =>
      simp [applyFile_timid, duplicate, proposals, nodup.1 duplicate]

/-- **All files in timid mode.** -/
theorem foldl_applyNext_timid (t : FileTree) (process : Nat) (s : ApplySummary) (files : List FileChanges) :
    (files.foldl (applyNext process .timid) (t, s)).1 = t ∧
      (files.foldl (applyNext process .timid) (t, s)).2.outcomes.flatMap Report.notices =
        s.outcomes.flatMap Report.notices ++ files.flatMap proposals := by
  induction files generalizing s with
  | nil => simp
  | cons c files ih =>
    obtain ⟨same, told⟩ := applyNext_timid t process s c
    rw [List.foldl_cons]
    generalize applyNext process .timid (t, s) c = state at *
    obtain ⟨t', s'⟩ := state
    simp only at same told
    subst same
    obtain ⟨same', told'⟩ := ih s'
    exact ⟨same', by rw [told', told, List.append_assoc, List.flatMap_cons]⟩

end FileTree

/-- Failures that are added to a report leave what it tells about withheld changes. -/
theorem Report.withheld_foldl_addFailure (failures : List Failure) (r : Report) :
    (failures.foldl Report.addFailure r).withheld = r.withheld := by
  induction failures generalizing r with
  | nil => rfl
  | cons f failures ih => exact ih _

/-- A list of notices tells all proposals of the files whose edits start at different places: file by
file the lines with edits, ascending and each once, and the move to another place. -/
def Tells (changes : Changes) (notices : List Notice) : Prop :=
  ∃ lines : FileChanges → List Nat,
    (∀ c ∈ changes.files, (lines c).Pairwise (· < ·) ∧ ∀ line, line ∈ lines c ↔ ∃ e ∈ c.edits, e.line = line) ∧
    notices = (changes.files.filter fun c => (c.edits.map Edit.key).Nodup).flatMap fun c =>
      (lines c).map (.edit c.path.text ·) ++
        ((c.moveTo.filter (!·.same c.path)).map fun target => .move c.path.text target.text).toList

theorem tells_proposals (changes : Changes) : Tells changes (changes.files.flatMap FileTree.proposals) := by
  refine ⟨fun c => FileTree.linesOf c.edits, fun c _ => ⟨FileTree.linesOf_ascending _, fun _ => FileTree.mem_linesOf⟩, ?_⟩
  induction changes.files with
  | nil => rfl
  | cons c files ih =>
    rw [List.flatMap_cons, List.filter_cons, FileTree.proposals]
    split
    · rename_i nodup
      rw [if_pos (decide_eq_true nodup), List.flatMap_cons, ih]
      rfl
    · rename_i meet
      rw [if_neg (by simpa using meet), List.nil_append, ih]

namespace RunRequest

/-- The changes that a run has to carry out: what the scan of its readable files proposes. -/
def pending (refactoring : Refactoring) (files : List Path) (t : FileTree) : Changes :=
  refactoring.scan (.ofSources (readFiles t files).1)

theorem mode_of_plan {request : RunRequest} {t : FileTree} {mode : EditMode} {refactoring : Refactoring}
    {files : List Path} (h : request.plan t = .ok (mode, refactoring, files)) : request.mode = some mode := by
  rw [plan] at h
  split at h
  · rename_i found
    rw [bind_eq_ok_iff] at h
    obtain ⟨_, same, h⟩ := h
    cases same
    rw [bind_eq_ok_iff] at h
    obtain ⟨prepared, -, h⟩ := h
    rw [bind_eq_ok_iff] at h
    obtain ⟨collected, -, h⟩ := h
    cases h
    exact found
  · cases h

/-- **Runs that change nothing.** -/
theorem run_untouched (request : RunRequest) (process : Nat) (t : FileTree) :
    (∀ e, (request.run process t).2 = .error e → (request.run process t).1 = t) ∧
      (request.mode = some .timid → (request.run process t).1 = t ∧
        ∀ result, (request.run process t).2 = .ok result →
          ∃ files, request.plan t = .ok (.timid, result.refactoring, files) ∧
            Tells (pending result.refactoring files t) result.report.withheld) := by
  rw [run]
  cases planned : request.plan t with
  | error e => exact ⟨fun _ _ => rfl, fun _ => ⟨rfl, nofun⟩⟩
  | ok plan =>
    obtain ⟨mode, refactoring, files⟩ := plan
    refine ⟨nofun, fun timid => ?_⟩
    have mode_eq := mode_of_plan planned
    rw [timid] at mode_eq
    cases mode_eq
    obtain ⟨same, told⟩ := FileTree.foldl_applyNext_timid t process {} (pending refactoring files t).files
    refine ⟨same, fun result h => ?_⟩
    cases h
    refine ⟨files, rfl, ?_⟩
    have all : (Report.ofSummary .timid (t.applyAll process .timid (pending refactoring files t)).2).withheld =
        (pending refactoring files t).files.flatMap FileTree.proposals := told
    have kept := Report.withheld_foldl_addFailure ((readFiles t files).2.map reportFailure)
      (.ofSummary .timid (t.applyAll process .timid (pending refactoring files t)).2)
    exact (kept.trans all).symm ▸ tells_proposals _

/-- The renaming of a file that another one includes: without a mode it is refused, and in timid mode
the edit of the include and the move are told. -/
theorem run_untouched_include :
    let t : FileTree :=
      { nodes := [([Utf8.encode "p"], .directory),
          ([Utf8.encode "p", Utf8.encode "a.php"], .file (Utf8.encode "<?php\nrequire 'b.php';\n")),
          ([Utf8.encode "p", Utf8.encode "b.php"], .file (Utf8.encode "<?php\n"))] }
    let request : RunRequest :=
      { refactoring := .renameFile (.ofText "/p/b.php") (.ofText "/p/c.php"), mode := none, paths := [.ofText "/p"] }
    let timid : RunRequest := { request with mode := some .timid }
    ((request.run 7 t).2 = .error (.configuration "edit mode not set") ∧ (request.run 7 t).1 = t) ∧
      (timid.run 7 t).1 = t ∧ ∃ result, (timid.run 7 t).2 = .ok result ∧
        result.report.withheld = [.edit "/p/a.php" 2, .move "/p/b.php" "/p/c.php"] ∧
        ∃ files, timid.plan t = .ok (.timid, result.refactoring, files) ∧
          Tells (pending result.refactoring files t) result.report.withheld := by
  intro t request timid
  have refused : (request.run 7 t).2 = .error (.configuration "edit mode not set") := rfl
  have told : (timid.run 7 t).2.toOption.map (·.report.withheld) =
      some [.edit "/p/a.php" 2, .move "/p/b.php" "/p/c.php"] := by decide +kernel
  obtain ⟨same, tells⟩ := (run_untouched timid 7 t).2 rfl
  refine ⟨⟨refused, (run_untouched request 7 t).1 _ refused⟩, same, ?_⟩
  generalize timid.run 7 t = outcome at *
  obtain ⟨t', _ | result⟩ := outcome
  · cases told
  · exact ⟨result, rfl, Option.some.inj told, tells result rfl⟩

end RunRequest

end PhpRename
