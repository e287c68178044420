import Mathlib.Data.List.Forall2
import Mathlib.Data.List.Pairwise
import PhpRename.Proofs.Files.Apart

/-!
# Independent files

When the files of a run lie apart, each of them is changed as if it were alone: the run puts together
what carrying out the changes of each file makes of the tree at the beginning. The invariant of the run
is `Separate`: so far, exactly what the files change alone has been changed.
-/

set_option autoImplicit false

namespace PhpRename.FileTree

open Utf8 (encode)

variable {t : FileTree} {process : Nat} {mode : EditMode} {c : FileChanges} {done rest files : List FileChanges}
  {state result : FileTree × ApplySummary} {n : Names}

/-- The failure of a result. -/
def failure? {ε α : Type} : Except ε α → Option ε
  | .error e => some e
  | .ok _ => none

/-- Files whose changes do not meet: they lie apart, the temporary names of those that are edited are unused, and
what is moved is no directory. -/
structure Independent (t : FileTree) (process : Nat) (files : List FileChanges) : Prop where
  formed : WellFormed t
  unused : ∀ c ∈ files, c.edits ≠ [] → t.has (temporaryPath c.path process) = false
  file : ∀ c ∈ files, ∀ target ∈ c.move?, (t.makeRoom target).1.isDirectory c.path = false
  apart : files.Pairwise fun c d => t.Apart process c d ∧ t.Apart process d c

/-- A result in which every file was changed as if it were alone. -/
structure Separate (t : FileTree) (process : Nat) (mode : EditMode) (files : List FileChanges)
    (result : FileTree × ApplySummary) : Prop where
  /-- Each file with something to do has the outcome that it has alone, or fails as it does alone. -/
  outcomes : result.2.outcomes =
    (files.filter (!·.isEmpty)).filterMap fun c => (t.applyFile process mode c).2.toOption
  failures : List.Forall₂ ApplyError.Alike
    ((files.filter (!·.isEmpty)).filterMap fun c => failure? (t.applyFile process mode c).2) result.2.failures
  working : result.1.workingDirectory = t.workingDirectory
  /-- What a file changes alone is changed, and nothing else. -/
  changed : ∀ c ∈ files, ∀ n, (t.applyFile process mode c).1.node? n ≠ t.node? n →
    result.1.node? n = (t.applyFile process mode c).1.node? n
  unchanged : ∀ n, (∀ c ∈ files, (t.applyFile process mode c).1.node? n = t.node? n) →
    result.1.node? n = t.node? n

namespace Separate

theorem nil (t : FileTree) (process : Nat) (mode : EditMode) : Separate t process mode [] (t, {}) :=
  ⟨rfl, .nil, rfl, nofun, fun _ _ => rfl⟩

/-- What has happened so far was done by the files so far. -/
theorem beside (h : Separate t process mode done state)
    (touches : ∀ c ∈ done, Beside t (t.applyFile process mode c).1 [c]) : Beside t state.1 done := by
  refine ⟨h.working, fun n => ?_⟩
  by_cases changed : ∃ c ∈ done, (t.applyFile process mode c).1.node? n ≠ t.node? n
  · obtain ⟨c, mem, differs⟩ := changed
    rcases (touches c mem).node n with same | ⟨d, single, touch⟩
    · exact absurd same differs
    · rw [List.mem_singleton] at single
      subst single
      rw [h.changed d mem n differs]
      exact .inr ⟨d, mem, touch⟩
  · refine .inl (h.unchanged n fun c mem => ?_)
    by_contra differs
    exact changed ⟨c, mem, differs⟩

/-- What a file changes is added to what was changed before. -/
theorem add {u : FileTree} {outcomes : List FileOutcome} {failures : List ApplyError}
    (h : Separate t process mode done state) (carries : Carries t (t.applyFile process mode c).1 state.1 u)
    (outcomes_eq : outcomes = ((done ++ [c]).filter (!·.isEmpty)).filterMap fun c => (t.applyFile process mode c).2.toOption)
    (failures_alike : List.Forall₂ ApplyError.Alike
      (((done ++ [c]).filter (!·.isEmpty)).filterMap fun c => failure? (t.applyFile process mode c).2) failures) :
    Separate t process mode (done ++ [c]) (u, ⟨outcomes, failures⟩) := by
  refine ⟨outcomes_eq, failures_alike, carries.working.2.trans h.working, fun d mem n differs => ?_, fun n same => ?_⟩
  · have now := carries.node n
    rcases List.mem_append.1 mem with before | last
    · -- The earlier change is still there, or has been made once more.
      have earlier := h.changed d before n differs
      rcases now with ⟨-, kept⟩ | ⟨untouched, -⟩ | ⟨-, there, -, made⟩
      · exact kept.trans earlier
      · exact absurd (earlier.symm.trans untouched) differs
      · exact made.trans (there.symm.trans earlier)
    · rw [List.mem_singleton] at last
      subst last
      rcases now with ⟨unchanged, -⟩ | ⟨-, after⟩ | ⟨-, -, made, made'⟩
      · exact absurd unchanged differs
      · exact after
      · exact made'.trans made.symm
  · have before := h.unchanged n fun d mem => same d (List.mem_append_left _ mem)
    have last := same c (by simp)
    rcases carries.node n with ⟨-, kept⟩ | ⟨-, after⟩ | ⟨none, -, made, -⟩
    · exact kept.trans before
    · exact after.trans last
    · rw [last, none] at made
      cases made

end Separate

/-- A file without anything to do leaves the tree as it is. -/
theorem applyFile_of_isEmpty (empty : c.isEmpty = true) : (t.applyFile process mode c).1 = t := by
  rw [FileChanges.isEmpty, Bool.and_eq_true, List.isEmpty_iff, Option.isNone_iff_eq_none] at empty
  obtain ⟨none, still⟩ := empty
  have permitted : c.permitted mode = [] := by rw [FileChanges.permitted, none, List.filter_nil]
  have move : c.move? = Option.none := by rw [FileChanges.move?, still, Option.filter_none]
  rw [applyFile, none, permitted]
  simp only [Edit.duplicate?, applyEdits, List.isEmpty_nil, if_true, applyMove, move]

/-- **One more file.** -/
theorem Separate.next (h : Separate t process mode done state) (independent : Independent t process (done ++ [c])) :
    Separate t process mode (done ++ [c]) (applyNext process mode state c) := by
  have mem : c ∈ done ++ [c] := by simp
  have apart : t.ApartFrom process c done := fun d before =>
    ((List.pairwise_append.1 independent.apart).2.2 d before c (List.mem_singleton_self c)).symm
  have beside := h.beside fun d before => applyFile_touches (independent.unused d (List.mem_append_left _ before))
    (independent.file d (List.mem_append_left _ before)) mode
  obtain ⟨alike, carries⟩ :=
    applyFile_beside independent.formed beside apart (independent.unused c mem) (independent.file c mem) mode
  rw [applyNext]
  split
  · -- Nothing is to be done, alone or not.
    rename_i empty
    have still : Carries t (t.applyFile process mode c).1 state.1 state.1 := by
      rw [applyFile_of_isEmpty empty]
      exact .refl ..
    refine h.add still ?_ ?_
    · simp [h.outcomes, empty]
    · simpa [empty] using h.failures
  · rename_i todo
    have entries : (done ++ [c]).filter (!·.isEmpty) = done.filter (!·.isEmpty) ++ [c] := by simp [todo]
    generalize alone : t.applyFile process mode c = result at *
    generalize state.1.applyFile process mode c = result' at *
    obtain ⟨t', outcome⟩ := result
    obtain ⟨u', outcome'⟩ := result'
    have carries' : Carries t (t.applyFile process mode c).1 state.1 u' := by rwa [alone]
    cases alike with
    | ok o =>
      refine h.add carries' ?_ ?_
      · rw [entries]
        simp [h.outcomes, alone, Except.toOption]
      · rw [entries]
        simpa [alone, failure?] using h.failures
    | error alike =>
      refine h.add carries' ?_ ?_
      · rw [entries]
        simp [h.outcomes, alone, Except.toOption]
      · rw [entries]
        simpa [alone, failure?] using List.rel_append h.failures (.cons alike .nil)

theorem Independent.of_append (h : Independent t process (done ++ rest)) : Independent t process done :=
  ⟨h.formed, fun c mem => h.unused c (List.mem_append_left _ mem), fun c mem => h.file c (List.mem_append_left _ mem),
    (List.pairwise_append.1 h.apart).1⟩

/-- **All files.** -/
theorem Separate.foldl (h : Separate t process mode done state) (independent : Independent t process (done ++ rest)) :
    Separate t process mode (done ++ rest) (rest.foldl (applyNext process mode) state) := by
  induction rest generalizing done state with
  | nil => simpa using h
  | cons c rest ih =>
    rw [List.append_cons] at independent ⊢
    exact ih (h.next independent.of_append) independent

/-! ## Places and other files -/

end PhpRename.FileTree
