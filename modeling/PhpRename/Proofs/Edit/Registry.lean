import PhpRename.Edit.Changes

/-!
# Entries of the pending changes

Changes go to the entry of their path. Proposing edits one after another is proposing them at once,
so the entry of a path that is new holds exactly the edits proposed for it.
-/

set_option autoImplicit false

namespace PhpRename

/-! ## The order of paths -/

namespace Path

theorem Component.compare_eq_iff {a b : Component} : a.compare b = .eq ↔ a = b := by
  cases a <;> cases b <;> simp [Component.compare, Component.rank]

theorem compareComponents_eq_iff {as bs : List Component} : compareComponents as bs = .eq ↔ as = bs := by
  induction as generalizing bs with
  | nil => cases bs <;> simp [compareComponents]
  | cons a as ih =>
    cases bs with
    | nil => simp [compareComponents]
    | cons b bs => rw [compareComponents, Ordering.then_eq_eq, Component.compare_eq_iff, ih, List.cons.injEq]

/-- Paths are equal in the order of paths when they are the same path. -/
theorem compare_eq_iff_same {p q : Path} : p.compare q = .eq ↔ p.same q = true := by
  rw [compare, compareComponents_eq_iff, same, beq_iff_eq]

theorem compare_self (p : Path) : p.compare p = .eq := compareComponents_eq_iff.2 rfl

end Path

namespace Changes

/-! ## Changing an entry -/

theorem mem_updateIn {path : Path} {change : FileChanges → FileChanges} {cs : List FileChanges} {c : FileChanges}
    (h : c ∈ updateIn path change cs) :
    c ∈ cs ∨ c = change { path } ∨ ∃ d ∈ cs, path.same d.path = true ∧ c = change d := by
  induction cs with
  | nil => exact .inr (.inl (List.mem_singleton.1 h))
  | cons d cs ih =>
    rw [updateIn] at h
    split at h
    · rcases List.mem_cons.1 h with rfl | h
      · exact .inr (.inl rfl)
      · exact .inl h
    · rename_i eq
      rcases List.mem_cons.1 h with rfl | h
      · exact .inr (.inr ⟨d, by simp, Path.compare_eq_iff_same.1 eq, rfl⟩)
      · exact .inl (by simp [h])
    · rcases List.mem_cons.1 h with rfl | h
      · exact .inl (by simp)
      · rcases ih h with h | h | ⟨d', hd, same, h⟩
        · exact .inl (by simp [h])
        · exact .inr (.inl h)
        · exact .inr (.inr ⟨d', by simp [hd], same, h⟩)

/-- Two changes of the entry of a path are one. -/
theorem updateIn_updateIn (path : Path) {f g : FileChanges → FileChanges} (keeps : ∀ c, (g c).path = c.path)
    (cs : List FileChanges) : updateIn path f (updateIn path g cs) = updateIn path (fun c => f (g c)) cs := by
  induction cs with
  | nil => simp [updateIn, keeps, Path.compare_self]
  | cons c cs ih =>
    rw [updateIn, updateIn]
    cases h : path.compare c.path with
    | lt => simp [updateIn, keeps, Path.compare_self]
    | eq => simp [updateIn, keeps, h]
    | gt => simp [updateIn, h, ih]

theorem update_update (s : Changes) (path : Path) {f g : FileChanges → FileChanges}
    (keeps : ∀ c, (g c).path = c.path) : (s.update path g).update path f = s.update path fun c => f (g c) :=
  congrArg mk (updateIn_updateIn path keeps s.files)

/-- Proposes edits for a path, in order. -/
def addEdits (s : Changes) (path : Path) (es : List Edit) : Changes :=
  es.foldl (fun changes e => changes.addEdit path e) s

/-- Proposing edits one after another adds them all to one entry. -/
theorem addEdits_cons (s : Changes) (path : Path) (e : Edit) (es : List Edit) :
    s.addEdits path (e :: es) = s.update path fun c => { c with edits := c.edits ++ e :: es } := by
  induction es generalizing s e with
  | nil => rfl
  | cons e' es ih =>
    have step : s.addEdits path (e :: e' :: es) = (s.addEdit path e).addEdits path (e' :: es) := rfl
    rw [step, ih, addEdit, update_update]
    · simp only [List.append_assoc, List.cons_append, List.nil_append]
    · intro c
      rfl

/-- For a path that no entry has, the entry holds the proposed edits. -/
theorem mem_addEdits {s : Changes} {path : Path} {es : List Edit} {c : FileChanges}
    (fresh : ∀ d ∈ s.files, path.same d.path = false) (h : c ∈ (s.addEdits path es).files) :
    c ∈ s.files ∨ c.path = path ∧ c.edits = es := by
  cases es with
  | nil => exact .inl h
  | cons e es =>
    rw [addEdits_cons] at h
    rcases mem_updateIn h with h | rfl | ⟨d, hd, same, -⟩
    · exact .inl h
    · exact .inr ⟨rfl, rfl⟩
    · rw [fresh d hd] at same
      cases same

/-- Remembering a digest changes no path and no edits. -/
theorem mem_expect {s : Changes} {path : Path} {digest : String} {c : FileChanges}
    (h : c ∈ (s.expect path digest).files) : ∃ d ∈ s.files, c.path = d.path ∧ c.edits = d.edits := by
  obtain ⟨d, hd, rfl⟩ := List.mem_map.1 h
  refine ⟨d, hd, ?_⟩
  split <;> exact ⟨rfl, rfl⟩

/-! ## Looking an entry up -/

section

variable {path other : Path} {change : FileChanges → FileChanges} (keeps : ∀ c, (change c).path = c.path)
include keeps

/-- Changing the entry of a path leaves the entries of other paths alone. -/
theorem find?_updateIn_other (apart : path.same other = false) (cs : List FileChanges) :
    (updateIn path change cs).find? (·.path.same other) = cs.find? (·.path.same other) := by
  have elsewhere : (change { path }).path.same other = false := by rw [keeps, apart]
  induction cs with
  | nil => rw [updateIn, List.find?_cons, elsewhere]
  | cons c cs ih =>
    rw [updateIn]
    split
    · rw [List.find?_cons, elsewhere]
    · rename_i eq
      have here : c.path.same other = false := by
        have same := eq_of_beq (Path.compare_eq_iff_same.1 eq)
        rwa [Path.same, same] at apart
      have here' : (change c).path.same other = false := by rw [keeps, here]
      rw [List.find?_cons, List.find?_cons, here, here']
    · rw [List.find?_cons, List.find?_cons, ih]

/-- For a path without an entry one is made. -/
theorem find?_updateIn_new {cs : List FileChanges} (new : cs.find? (·.path.same path) = none) :
    (updateIn path change cs).find? (·.path.same path) = some (change { path }) := by
  have here : (change { path }).path.same path = true := by rw [keeps]; exact beq_self_eq_true _
  induction cs with
  | nil => rw [updateIn, List.find?_cons, here]
  | cons c cs ih =>
    have first : c.path.same path = false :=
      Bool.eq_false_iff.2 (List.find?_eq_none.1 new c (List.mem_cons_self ..))
    rw [List.find?_cons, first] at new
    rw [updateIn]
    split
    · rw [List.find?_cons, here]
    · rename_i eq
      have same := eq_of_beq (Path.compare_eq_iff_same.1 eq)
      rw [Path.same, same, beq_self_eq_true] at first
      cases first
    · rw [List.find?_cons, first]
      exact ih new

end

/-- The edits that are pending for a path. -/
def pending (s : Changes) (path : Path) : List Edit := ((s.get? path).map (·.edits)).getD []

/-- The edits for a path that a mode carries out. -/
def permitted (s : Changes) (mode : EditMode) (path : Path) : List Edit :=
  ((s.get? path).map (·.permitted mode)).getD []

theorem permitted_eq (s : Changes) (mode : EditMode) (path : Path) :
    s.permitted mode path = (s.pending path).filter (mode.permits ·.confidence) := by
  rw [permitted, pending]
  cases s.get? path with
  | none => rfl
  | some c => rfl

theorem get?_addEdits_other (s : Changes) {path other : Path} (apart : path.same other = false) (es : List Edit) :
    (s.addEdits path es).get? other = s.get? other := by
  cases es with
  | nil => rfl
  | cons e es =>
    have keeps : ∀ c : FileChanges, { c with edits := c.edits ++ e :: es }.path = c.path := fun _ => rfl
    rw [addEdits_cons]
    exact find?_updateIn_other keeps apart s.files

/-- For a path without an entry, what is proposed is what is pending. -/
theorem pending_addEdits_new {s : Changes} {path : Path} (new : s.get? path = none) (es : List Edit) :
    (s.addEdits path es).pending path = es := by
  cases es with
  | nil =>
    show ((s.get? path).map _).getD [] = []
    rw [new]
    rfl
  | cons e es =>
    have made : (s.addEdits path (e :: es)).get? path = some { path, edits := [] ++ e :: es } := by
      have keeps : ∀ c : FileChanges, { c with edits := c.edits ++ e :: es }.path = c.path := fun _ => rfl
      rw [addEdits_cons]
      exact find?_updateIn_new keeps new
    rw [pending, made]
    rfl

/-- Remembering a digest changes no pending edit. -/
theorem pending_expect (s : Changes) (path other : Path) (digest : String) :
    (s.expect path digest).pending other = s.pending other := by
  have shape : ∀ c : FileChanges, (if c.path.same path then { c with digest := some digest } else c).path = c.path ∧
      (if c.path.same path then { c with digest := some digest } else c).edits = c.edits := by
    intro c
    split <;> exact ⟨rfl, rfl⟩
  unfold pending get? expect
  rw [List.find?_map, Option.map_map]
  simp only [Function.comp_def, shape]

end Changes

end PhpRename
