import PhpRename.Proofs.Edit.Registry
import PhpRename.Proofs.Tracking.Frame
import PhpRename.Refactoring.Scan

/-!
# The edits that a scan proposes

A scan threads what it learns and what it proposes through every token of every file. Here the two
are taken apart: a file's proposals are the edits of its tokens, in order, each token seen by a
resolver of that file. Where no two files share a path, the entry of a file holds its proposals.
-/

set_option autoImplicit false

namespace PhpRename

/-! ## Files of a workspace -/

theorem Workspace.files_ofSources (sources : List (Path × Bytes)) :
    (Workspace.ofSources sources).files = sources.map fun s => .ofBytes s.1 s.2 := by
  have grow : ∀ w : Workspace, (sources.foldl (fun w s => w.add (.ofBytes s.1 s.2)) w).files =
      w.files ++ sources.map fun s => .ofBytes s.1 s.2 := by
    induction sources with
    | nil => intro w; simp
    | cons s sources ih =>
      intro w
      have added : (w.add (.ofBytes s.1 s.2)).files = w.files ++ [.ofBytes s.1 s.2] := rfl
      rw [List.foldl_cons, ih, added, List.map_cons, List.append_assoc, List.singleton_append]
  exact grow {}

namespace Refactoring

variable (refactoring : Refactoring)

/-! ## One file -/

/-- The resolver of a file once its first `n` tokens have taught their types. -/
def learned (r : Resolver) (n : Nat) : Resolver := (List.range n).foldl Tracking.token r

/-- The edits proposed for the first `n` tokens of a file, in order. -/
def proposals (r : Resolver) (n : Nat) : List Edit :=
  (List.range n).flatMap fun i => refactoring.edits (learned r (i + 1)) i

theorem learns_learned (r : Resolver) (n : Nat) : r.Learns (learned r n) := .foldl Tracking.token_learns _ r

theorem learned_succ (r : Resolver) (n : Nat) : learned r (n + 1) = Tracking.token (learned r n) n := by
  rw [learned, List.range_succ, List.foldl_append]
  rfl

theorem proposals_succ (r : Resolver) (n : Nat) :
    refactoring.proposals r (n + 1) = refactoring.proposals r n ++ refactoring.edits (learned r (n + 1)) n := by
  rw [proposals, List.range_succ, List.flatMap_append, List.flatMap_singleton]
  rfl

/-- The second pass over a file learns and proposes. -/
theorem foldl_visit (r : Resolver) (changes : Changes) (n : Nat) :
    (List.range n).foldl refactoring.visit (r, changes) =
      (learned r n, changes.addEdits r.path (refactoring.proposals r n)) := by
  induction n with
  | zero => rfl
  | succ n ih =>
    have same : (learned r (n + 1)).path = r.path := (learns_learned r (n + 1)).path
    rw [List.range_succ, List.foldl_append, ih, List.foldl_cons, List.foldl_nil, visit, ← learned_succ, same,
      proposals_succ, Changes.addEdits, Changes.addEdits, List.foldl_append]

/-! ## All files -/

/-- An entry of the pending changes that holds the proposals of a file. -/
structure Entry (w : Workspace) (c : FileChanges) (f : SourceFile) : Prop where
  path : c.path = f.path
  edits : ∃ bindings, c.edits = refactoring.proposals (w.resolver f bindings) f.tokens.size

variable {refactoring} {w : Workspace}

/-- One more file: its entry holds its proposals, and the others stay. -/
theorem entry_visitFile {files : List SourceFile} {f : SourceFile} {state : Bindings × Changes}
    (entries : ∀ c ∈ state.2.files, ∃ g ∈ files, refactoring.Entry w c g)
    (fresh : ∀ g ∈ files, g.path.same f.path = false) :
    ∀ c ∈ (refactoring.visitFile w state f).2.files, ∃ g ∈ files ++ [f], refactoring.Entry w c g := by
  intro c hc
  have visited : (refactoring.visitFile w state f).2 =
      state.2.addEdits f.path (refactoring.proposals (w.resolver f state.1) f.tokens.size) := by
    rw [visitFile, foldl_visit]
    rfl
  rw [visited] at hc
  have new : ∀ d ∈ state.2.files, f.path.same d.path = false := by
    intro d hd
    obtain ⟨g, hg, entry⟩ := entries d hd
    have apart := fresh g hg
    rw [Path.same, beq_eq_false_iff_ne] at apart ⊢
    rw [entry.path]
    exact Ne.symm apart
  rcases Changes.mem_addEdits new hc with old | ⟨path, edits⟩
  · obtain ⟨g, hg, entry⟩ := entries c old
    exact ⟨g, by simp [hg], entry⟩
  · exact ⟨f, by simp, path, state.1, edits⟩

theorem entry_foldl_visitFile (files : List SourceFile) {seen : List SourceFile} {state : Bindings × Changes}
    (entries : ∀ c ∈ state.2.files, ∃ g ∈ seen, refactoring.Entry w c g)
    (distinct : (seen ++ files).Pairwise fun f g => f.path.same g.path = false) :
    ∀ c ∈ (files.foldl (refactoring.visitFile w) state).2.files, ∃ g ∈ seen ++ files, refactoring.Entry w c g := by
  induction files generalizing seen state with
  | nil => simpa using entries
  | cons f files ih =>
    have fresh : ∀ g ∈ seen, g.path.same f.path = false := fun g hg =>
      (List.pairwise_append.1 distinct).2.2 g hg f (by simp)
    have regroup : seen ++ f :: files = (seen ++ [f]) ++ files := by simp
    rw [List.foldl_cons]
    rw [regroup] at distinct ⊢
    exact ih (entry_visitFile entries fresh) distinct

theorem entry_foldl_expect (files : List SourceFile) {changes : Changes} {P : FileChanges → Prop}
    (keeps : ∀ c d : FileChanges, c.path = d.path → c.edits = d.edits → P d → P c)
    (all : ∀ c ∈ changes.files, P c) :
    ∀ c ∈ (files.foldl (fun changes f => changes.expect f.path f.digest) changes).files, P c := by
  induction files generalizing changes with
  | nil => exact all
  | cons f files ih =>
    refine ih fun c hc => ?_
    obtain ⟨d, hd, path, edits⟩ := Changes.mem_expect hc
    exact keeps c d path edits (all d hd)

/-- **Proposals.** Where no two files share a path and nothing is pending before the scan, every
entry holds the proposals of one of the files. -/
theorem entry_scan (distinct : w.files.Pairwise fun f g => f.path.same g.path = false)
    (start : refactoring.initialChanges = {}) :
    ∀ c ∈ (refactoring.scan w).files, ∃ f ∈ w.files, refactoring.Entry w c f := by
  rw [scan, start]
  have none : ∀ c ∈ (w.track {}, ({} : Changes)).2.files, ∃ g ∈ ([] : List SourceFile), refactoring.Entry w c g := by
    intro c hc
    cases hc
  refine entry_foldl_expect w.files ?_ ?_
  · rintro c d path edits ⟨f, hf, entry⟩
    exact ⟨f, hf, path.trans entry.path, by rw [edits]; exact entry.edits⟩
  · exact entry_foldl_visitFile w.files none distinct

/-! ## What is pending for a file -/

theorem visitFile_changes (w : Workspace) (state : Bindings × Changes) (f : SourceFile) :
    (refactoring.visitFile w state f).2 =
      state.2.addEdits f.path (refactoring.proposals (w.resolver f state.1) f.tokens.size) := by
  rw [visitFile, foldl_visit]
  rfl

/-- Files of other paths change nothing that is pending for a path. -/
theorem get?_foldl_visitFile (files : List SourceFile) (state : Bindings × Changes) {path : Path}
    (others : ∀ f ∈ files, f.path.same path = false) :
    (files.foldl (refactoring.visitFile w) state).2.get? path = state.2.get? path := by
  induction files generalizing state with
  | nil => rfl
  | cons f files ih =>
    rw [List.foldl_cons, ih _ fun g hg => others g (List.mem_cons_of_mem f hg), visitFile_changes,
      Changes.get?_addEdits_other _ (others f (List.mem_cons_self ..))]

/-- Once all files are visited, the proposals of each are pending. -/
theorem pending_foldl_visitFile (files : List SourceFile) {state : Bindings × Changes}
    (distinct : files.Pairwise fun f g => f.path.same g.path = false)
    (fresh : ∀ f ∈ files, state.2.get? f.path = none) {f : SourceFile} (mem : f ∈ files) :
    ∃ bindings, (files.foldl (refactoring.visitFile w) state).2.pending f.path =
      refactoring.proposals (w.resolver f bindings) f.tokens.size := by
  induction files generalizing state with
  | nil => cases mem
  | cons g files ih =>
    obtain ⟨first, others⟩ := List.pairwise_cons.1 distinct
    rw [List.foldl_cons]
    obtain rfl | mem := List.mem_cons.1 mem
    · have apart : ∀ h ∈ files, h.path.same f.path = false := by
        intro h hh
        have apart := first h hh
        rw [Path.same, beq_eq_false_iff_ne] at apart ⊢
        exact Ne.symm apart
      refine ⟨state.1, ?_⟩
      rw [Changes.pending, get?_foldl_visitFile files _ apart, ← Changes.pending, visitFile_changes]
      exact Changes.pending_addEdits_new (fresh f (List.mem_cons_self ..)) _
    · apply ih others ?_ mem
      intro h hh
      rw [visitFile_changes, Changes.get?_addEdits_other _ (first h hh)]
      exact fresh h (List.mem_cons_of_mem g hh)

theorem pending_foldl_expect (files : List SourceFile) (changes : Changes) (path : Path) :
    (files.foldl (fun changes f => changes.expect f.path f.digest) changes).pending path = changes.pending path := by
  induction files generalizing changes with
  | nil => rfl
  | cons f files ih => rw [List.foldl_cons, ih, Changes.pending_expect]

/-- **What is pending for a file** after a scan are its proposals, where no two files share a path and nothing was
pending before. -/
theorem pending_scan (distinct : w.files.Pairwise fun f g => f.path.same g.path = false)
    (start : refactoring.initialChanges = {}) {f : SourceFile} (mem : f ∈ w.files) :
    ∃ bindings, (refactoring.scan w).pending f.path = refactoring.proposals (w.resolver f bindings) f.tokens.size := by
  rw [scan, start]
  simp only [pending_foldl_expect]
  exact pending_foldl_visitFile w.files distinct (fun _ _ => rfl) mem

/-- What a mode carries out for a source are those of its proposals that it permits. -/
theorem permitted_scan {sources : List (Path × Bytes)} (distinct : sources.Pairwise fun a b => a.1.same b.1 = false)
    (start : refactoring.initialChanges = {}) {path : Path} {source : Bytes} (mem : (path, source) ∈ sources)
    (mode : EditMode) : ∃ r : Resolver, r.tokens = Lexer.tokenize source ∧
      (refactoring.scan (.ofSources sources)).permitted mode path =
        (refactoring.proposals r r.tokens.size).filter (mode.permits ·.confidence) := by
  have apart : (Workspace.ofSources sources).files.Pairwise fun f g => f.path.same g.path = false := by
    rw [Workspace.files_ofSources]
    exact List.pairwise_map.2 distinct
  have file : SourceFile.ofBytes path source ∈ (Workspace.ofSources sources).files := by
    rw [Workspace.files_ofSources]
    exact List.mem_map.2 ⟨_, mem, rfl⟩
  obtain ⟨bindings, pending⟩ := pending_scan apart start file
  refine ⟨(Workspace.ofSources sources).resolver (.ofBytes path source) bindings, rfl, ?_⟩
  rw [Changes.permitted_eq]
  exact congrArg _ pending

end Refactoring

end PhpRename
