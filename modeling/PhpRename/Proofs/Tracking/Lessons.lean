import PhpRename.Proofs.Bindings.History
import PhpRename.Proofs.Tracking.Frame
import PhpRename.Workspace

/-!
# Runs of lessons

Bindings change by lessons that are told to resolvers of files, one after the other. A lesson
records at most one binding (`learn_effect`), so what such a record keeps holds after any run of
lessons (`learnAll_induction`). Passes over the files of a workspace are runs of lessons.
-/

set_option autoImplicit false

namespace PhpRename

/-! ## One lesson -/

namespace Resolver

/-- The binding that an offered type would make. -/
def offered (r : Resolver) (index : Nat) (type name : String) (scope : Option Int) : Binding where
  file := r.file
  scope := (r.keyFor index name scope).2
  name := (r.keyFor index name scope).1
  type := type
  position := index

/-- An offered type is recorded unless it is the name itself or the site keeps what it has. -/
theorem bindName_eq (r : Resolver) (index : Nat) (type name : String) (scope : Option Int) :
    r.bindName index type name scope =
      if (r.offered index type name scope).name == type || r.keeps index type then r
      else { r with bindings := r.bindings.record (r.offered index type name scope) } := rfl

/-- What a lesson does to the bindings. -/
inductive Effect (r : Resolver) : Bindings → Prop where
  /-- No binding changes; there may be one more mark. -/
  | kept (bindings : Bindings) (same : bindings.entries = r.bindings.entries) : Effect r bindings
  /-- A type is recorded at a site that does not keep what it has. -/
  | recorded (index : Nat) (type name : String) (scope : Option Int) (other : (r.offered index type name scope).name ≠ type)
      (gives : r.keeps index type = false) : Effect r (r.bindings.record (r.offered index type name scope))

theorem bindName_effect (r : Resolver) (index : Nat) (type name : String) (scope : Option Int) :
    r.Effect (r.bindName index type name scope).bindings := by
  rw [bindName_eq]
  split
  · exact .kept _ rfl
  · rename_i gives
    rw [Bool.or_eq_true, not_or, beq_iff_eq, Bool.not_eq_true] at gives
    exact .recorded index type name scope gives.1 gives.2

theorem learn_effect (r : Resolver) (lesson : Lesson) : r.Effect (r.learn lesson).bindings := by
  cases lesson with
  | bind index type name scope =>
    cases name with
    | none =>
      rw [learn, bindToken]
      split
      · exact r.bindName_effect ..
      · exact .kept _ rfl
    | some name => exact r.bindName_effect ..
  | markGlobal index =>
    refine .kept _ ?_
    rw [learn, markGlobal]
    split
    · rfl
    · split
      · rfl
      · exact Bindings.entries_markGlobal ..

end Resolver

/-! ## Runs -/

/-- A lesson for the resolver of a file. -/
structure Call where
  workspace : Workspace
  file : SourceFile
  lesson : Lesson

namespace Bindings

/-- The bindings after a lesson. -/
def learn (s : Bindings) (c : Call) : Bindings := ((c.workspace.resolver c.file s).learn c.lesson).bindings

/-- The bindings after some lessons. -/
def learnAll (s : Bindings) (calls : List Call) : Bindings := calls.foldl learn s

theorem learnAll_append (s : Bindings) (before later : List Call) :
    s.learnAll (before ++ later) = (s.learnAll before).learnAll later := List.foldl_append

/-- What each lesson keeps holds after any run of lessons. -/
theorem learnAll_induction {P : Bindings → Prop} (each : ∀ s c, P s → P (s.learn c)) {s : Bindings} (start : P s)
    (calls : List Call) : P (s.learnAll calls) := by
  induction calls generalizing s with
  | nil => exact start
  | cons c calls ih => exact ih (each s c start)

end Bindings

/-- A resolver that is told a lesson is the one for the bindings after it. -/
theorem Workspace.resolver_learn (w : Workspace) (f : SourceFile) (s : Bindings) (lesson : Lesson) :
    w.resolver f (s.learn ⟨w, f, lesson⟩) = (w.resolver f s).learn lesson := by
  obtain ⟨bindings, same⟩ := (w.resolver f s).learn_learns lesson
  rw [Bindings.learn, same]
  rfl

/-! ## Passes -/

namespace Workspace

variable (w : Workspace) (s : Bindings)

theorem foldl_learn (f : SourceFile) (lessons : List Lesson) :
    (lessons.foldl Resolver.learn (w.resolver f s)).bindings = s.learnAll (lessons.map (⟨w, f, ·⟩)) := by
  induction lessons generalizing s with
  | nil => rfl
  | cons lesson lessons ih =>
    rw [List.foldl_cons, ← resolver_learn, ih, List.map_cons]
    rfl

theorem exists_trackFile (f : SourceFile) : ∃ calls, w.trackFile s f = s.learnAll calls := by
  obtain ⟨lessons, taught⟩ := Resolver.Taught.foldl Tracking.token_taught (List.range f.tokens.size) (w.resolver f s)
  exact ⟨_, by rw [trackFile, taught, foldl_learn]⟩

theorem exists_track : ∃ calls, w.track s = s.learnAll calls := by
  rw [track]
  induction w.files generalizing s with
  | nil => exact ⟨[], rfl⟩
  | cons f files ih =>
    obtain ⟨first, file⟩ := w.exists_trackFile s f
    obtain ⟨rest, others⟩ := ih (w.trackFile s f)
    exact ⟨first ++ rest, by rw [List.foldl_cons, others, Bindings.learnAll_append, file]⟩

/-- Any number of passes is a run of lessons. -/
theorem exists_trackPasses (n : Nat) : ∃ calls, w.trackPasses n s = s.learnAll calls := by
  induction n generalizing s with
  | zero => exact ⟨[], rfl⟩
  | succ n ih =>
    obtain ⟨first, pass⟩ := w.exists_track s
    obtain ⟨rest, others⟩ := ih (w.track s)
    exact ⟨first ++ rest, by rw [trackPasses, others, Bindings.learnAll_append, pass]⟩

end Workspace

end PhpRename
