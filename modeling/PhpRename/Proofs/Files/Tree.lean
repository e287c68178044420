import PhpRename.Files.Tree
import PhpRename.Proofs.Path.Segments

/-!
# What file operations change

A file tree is seen through its nodes (`node?`). Every operation is described by the node that it
puts or takes away, and by the directories that have to be there for it; these stay where directories
are kept (`enter_keeps`).
-/

set_option autoImplicit false

namespace PhpRename

theorem bind_eq_ok_iff {ε α β : Type} {x : Except ε α} {f : α → Except ε β} {b : β} :
    (x >>= f) = .ok b ↔ ∃ a, x = .ok a ∧ f a = .ok b := by
  cases x with
  | error e => exact ⟨nofun, nofun⟩
  | ok a =>
    constructor
    · intro h
      exact ⟨a, rfl, h⟩
    · rintro ⟨_, same, h⟩
      cases same
      exact h

namespace FileTree

variable {t u : FileTree}

/-! ## Nodes -/

theorem lookup_filter (nodes : List (Names × Node)) (n m : Names) :
    (nodes.filter (·.1 != n)).lookup m = if m = n then none else nodes.lookup m := by
  induction nodes with
  | nil => simp
  | cons entry nodes ih =>
    obtain ⟨names, node⟩ := entry
    by_cases here : names = n
    · subst here
      rw [List.filter_cons_of_neg (by simp), ih, List.lookup_cons]
      by_cases same : m = names
      · rw [if_pos same, if_pos same]
      · have other : (m == names) = false := by simpa using same
        rw [if_neg same, if_neg same, other]
    · by_cases same : m = names
      · subst same
        simp [here]
      · have other : (m == names) = false := by simpa using same
        simp [here, ih, List.lookup_cons, other]

@[simp] theorem node?_root (t : FileTree) : t.node? [] = some .directory := rfl

theorem node?_of_ne {n : Names} (h : n ≠ []) : t.node? n = t.nodes.lookup n := by
  rw [node?, if_neg (by simpa using h)]

theorem node?_put {n : Names} (hn : n ≠ []) (node : Node) (m : Names) :
    (t.put n node).node? m = if m = n then some node else t.node? m := by
  by_cases hm : m = []
  · subst hm
    rw [node?_root, if_neg (Ne.symm hn), node?_root]
  · rw [node?_of_ne hm, node?_of_ne hm, put, List.lookup_append, lookup_filter]
    by_cases same : m = n
    · simp [same]
    · have other : (m == n) = false := by simpa using same
      simp [same, List.lookup_cons, other]

theorem node?_remove {n : Names} (hn : n ≠ []) (m : Names) :
    (t.remove n).node? m = if m = n then none else t.node? m := by
  by_cases hm : m = []
  · subst hm
    rw [node?_root, if_neg (Ne.symm hn), node?_root]
  · rw [node?_of_ne hm, node?_of_ne hm, remove, lookup_filter]

/-- Every directory of a tree is one of another tree. -/
def KeepsDirectories (t u : FileTree) : Prop := ∀ n, t.node? n = some .directory → u.node? n = some .directory

/-- One tree is another one with a node put at given names. -/
structure Puts (t u : FileTree) (n : Names) (node : Node) : Prop where
  working : u.workingDirectory = t.workingDirectory
  node : ∀ m, u.node? m = if m = n then some node else t.node? m

/-- One tree is another one with some of the missing directories made. -/
structure Grown (t u : FileTree) (made : Names → Prop) : Prop where
  working : u.workingDirectory = t.workingDirectory
  node : ∀ n, u.node? n = t.node? n ∨ made n ∧ t.node? n = none ∧ u.node? n = some .directory

namespace Grown

variable {made made' : Names → Prop}

theorem refl (t : FileTree) (made : Names → Prop) : Grown t t made := ⟨rfl, fun _ => .inl rfl⟩

theorem mono (h : Grown t u made) (more : ∀ n, made n → made' n) : Grown t u made' :=
  ⟨h.working, fun n => (h.node n).imp_right fun ⟨here, rest⟩ => ⟨more n here, rest⟩⟩

theorem trans {v : FileTree} (h : Grown t u made) (h' : Grown u v made) : Grown t v made := by
  refine ⟨h'.working.trans h.working, fun n => ?_⟩
  rcases h.node n with same | ⟨here, none, directory⟩
  · rcases h'.node n with same' | ⟨here, none, directory⟩
    · exact .inl (same'.trans same)
    · exact .inr ⟨here, same ▸ none, directory⟩
  · rcases h'.node n with same' | ⟨-, none', -⟩
    · exact .inr ⟨here, none, same'.trans directory⟩
    · rw [directory] at none'
      cases none'

theorem keeps (h : Grown t u made) : KeepsDirectories t u := by
  intro n directory
  rcases h.node n with same | ⟨-, none, -⟩
  · rw [same, directory]
  · rw [directory] at none
    cases none

/-- Files are neither made nor changed. -/
theorem file_iff (h : Grown t u made) {n : Names} {content : Bytes} :
    u.node? n = some (.file content) ↔ t.node? n = some (.file content) := by
  rcases h.node n with same | ⟨-, none, directory⟩
  · rw [same]
  · rw [none, directory]
    exact ⟨nofun, nofun⟩

end Grown

/-! ## Following steps -/

theorem follow_cons (t : FileTree) (dir : Names) (step : Bytes) (rest : List Bytes) :
    t.follow dir (step :: rest) =
      if step == Path.dotDot then t.follow dir.dropLast rest
      else if isTooLong step then .error .nameTooLong
      else
        match t.node? (dir ++ [step]) with
        | none => .error .notFound
        | some (.file _) => .error .notDirectory
        | some .directory => t.follow (dir ++ [step]) rest := rfl

theorem follow_append (t : FileTree) (dir : Names) (xs ys : List Bytes) :
    t.follow dir (xs ++ ys) = t.follow dir xs >>= fun d => t.follow d ys := by
  induction xs generalizing dir with
  | nil => rfl
  | cons step xs ih =>
    rw [List.cons_append, follow_cons, follow_cons]
    split
    · exact ih _
    · split
      · rfl
      · split
        · rfl
        · rfl
        · exact ih _

/-- A way through directories stays one while the directories are kept. -/
theorem follow_keeps (keeps : KeepsDirectories t u) {dir dir' : Names} {steps : List Bytes}
    (h : t.follow dir steps = .ok dir') : u.follow dir steps = .ok dir' := by
  induction steps generalizing dir with
  | nil => exact h
  | cons step steps ih =>
    rw [follow_cons] at h ⊢
    split at h
    · rename_i up
      rw [if_pos up]
      exact ih h
    · rename_i up
      rw [if_neg up]
      split at h
      · cases h
      · rename_i short
        rw [if_neg short]
        split at h
        · cases h
        · cases h
        · rename_i here
          rw [keeps _ here]
          exact ih h

theorem enter_eq_ok_iff {r : Route} {dir : Names} {name : Bytes} :
    t.enter r = .ok (dir, name) ↔
      ∃ above, r.steps = above ++ [name] ∧ t.follow r.start above = .ok dir ∧ name ≠ Path.dotDot ∧ isTooLong name = false := by
  rw [enter, bind_eq_ok_iff]
  constructor
  · rintro ⟨found, follow, h⟩
    split at h
    · cases h
    · rename_i last hl
      split at h
      · cases h
      · rename_i up
        split at h
        · cases h
        · rename_i short
          cases h
          obtain ⟨above, steps⟩ := List.getLast?_eq_some_iff.1 hl
          rw [steps, List.dropLast_concat] at follow
          exact ⟨above, steps, follow, by simpa using up, by simpa using short⟩
  · rintro ⟨above, steps, follow, up, short⟩
    refine ⟨dir, by rw [steps, List.dropLast_concat]; exact follow, ?_⟩
    have last : r.steps.getLast? = some name := by rw [steps, List.getLast?_concat]
    simp only [last]
    rw [if_neg (by simpa using up), if_neg (by simp [short])]

theorem enter_keeps (keeps : KeepsDirectories t u) {r : Route} {dir : Names} {name : Bytes}
    (h : t.enter r = .ok (dir, name)) : u.enter r = .ok (dir, name) := by
  obtain ⟨above, steps, follow, rest⟩ := enter_eq_ok_iff.1 h
  exact enter_eq_ok_iff.2 ⟨above, steps, follow_keeps keeps follow, rest⟩

/-! ## Routes -/

theorem route_eq_ok_iff {p : Path} {r : Route} :
    t.route p = .ok r ↔ (0 : UInt8) ∉ p.bytes ∧ p.bytes ≠ [] ∧
      r = ⟨t.startOf p, p.steps, wantsDirectory p⟩ := by
  rw [route]
  split
  · rename_i nul
    exact ⟨nofun, fun h => absurd (by simpa using nul) h.1⟩
  · rename_i nul
    split
    · rename_i empty
      exact ⟨nofun, fun h => absurd (by simpa using empty) h.2.1⟩
    · rename_i text
      rw [Except.ok.injEq]
      exact ⟨fun h => ⟨by simpa using nul, by simpa using text, h.symm⟩, fun h => h.2.2.symm⟩

theorem startOf_eq (h : u.workingDirectory = t.workingDirectory) (p : Path) : u.startOf p = t.startOf p := by
  rw [startOf, startOf, h]

theorem route_eq (h : u.workingDirectory = t.workingDirectory) (p : Path) : u.route p = t.route p := by
  rw [route, route, startOf_eq h]

/-! ## Finding -/

/-- Where a path ends in a name, it leads to the node of that name. -/
theorem find_of_enter {p : Path} {r : Route} {dir : Names} {name : Bytes} (route : t.route p = .ok r)
    (enter : t.enter r = .ok (dir, name)) :
    t.find p =
      match t.node? (dir ++ [name]) with
      | none => .error .notFound
      | some .directory => .ok (dir ++ [name], .directory)
      | some (.file content) =>
        if r.wantsDirectory then .error .notDirectory else .ok (dir ++ [name], .file content) := by
  obtain ⟨above, steps, follow, up, short⟩ := enter_eq_ok_iff.1 enter
  have last : r.steps.getLast? = some name := by rw [steps, List.getLast?_concat]
  have before : r.steps.dropLast = above := by rw [steps, List.dropLast_concat]
  have up' : (name == Path.dotDot) = false := by simpa using up
  rw [find, route]
  cases here : t.node? (dir ++ [name]) with
  | none => simp only [bind, Except.bind, before, follow, last, up', short, Bool.false_eq_true, if_false, here]
  | some node =>
    cases node <;> simp only [bind, Except.bind, before, follow, last, up', short, Bool.false_eq_true, if_false, here]

/-- A path that leads to a file ends in its name and does not ask for a directory. -/
theorem find_eq_file_iff {p : Path} {n : Names} {content : Bytes} :
    t.find p = .ok (n, .file content) ↔
      ∃ r dir name, t.route p = .ok r ∧ t.enter r = .ok (dir, name) ∧ r.wantsDirectory = false ∧
        n = dir ++ [name] ∧ t.node? n = some (.file content) := by
  constructor
  · intro h
    have h' := h
    rw [find, bind_eq_ok_iff] at h
    obtain ⟨r, route, h⟩ := h
    rw [bind_eq_ok_iff] at h
    obtain ⟨dir, follow, h⟩ := h
    split at h
    · cases h
    · rename_i last hl
      split at h
      · cases h
      · rename_i up
        split at h
        · cases h
        · rename_i short
          obtain ⟨above, steps⟩ := List.getLast?_eq_some_iff.1 hl
          rw [steps, List.dropLast_concat] at follow
          have enter : t.enter r = .ok (dir, last) :=
            enter_eq_ok_iff.2 ⟨above, steps, follow, by simpa using up, by simpa using short⟩
          split at h
          · cases h
          · cases h
          · rename_i found here
            split at h
            · cases h
            · rename_i wants
              cases h
              exact ⟨r, dir, last, route, enter, by simpa using wants, rfl, here⟩
  · rintro ⟨r, dir, name, route, enter, wants, rfl, here⟩
    rw [find_of_enter route enter, here]
    simp only [wants, Bool.false_eq_true, if_false]

theorem node?_of_find {p : Path} {n : Names} {content : Bytes} (found : t.find p = .ok (n, .file content)) :
    t.node? n = some (.file content) := by
  obtain ⟨_, _, _, -, -, -, -, here⟩ := find_eq_file_iff.1 found
  exact here

theorem read_eq_ok_iff {p : Path} {content : Bytes} :
    t.read p = .ok content ↔ ∃ n, t.find p = .ok (n, .file content) := by
  rw [read, bind_eq_ok_iff]
  constructor
  · rintro ⟨⟨n, node⟩, found, h⟩
    cases node with
    | file c =>
      cases h
      exact ⟨n, found⟩
    | directory => cases h
  · rintro ⟨n, found⟩
    exact ⟨(n, .file content), found, rfl⟩

/-! ## Writing and renaming -/

/-- Writing where there is nothing puts a file. -/
theorem write_of_none {p : Path} {r : Route} {dir : Names} {name : Bytes} (route : t.route p = .ok r)
    (enter : t.enter r = .ok (dir, name)) (free : t.node? (dir ++ [name]) = none) (wants : r.wantsDirectory = false)
    (content : Bytes) : t.write p content = .ok (t.put (dir ++ [name]) (.file content)) := by
  rw [write, route]
  simp only [bind, Except.bind, enter, free, wants, Bool.false_eq_true, if_false]

theorem write_of_enter_error {p : Path} {r : Route} {e : FileError} (route : t.route p = .ok r)
    (enter : t.enter r = .error e) (content : Bytes) : t.write p content = .error e := by
  rw [write, route]
  simp only [bind, Except.bind, enter]

/-- Renaming a file, where both paths end in names. -/
theorem rename_file {p q : Path} {r s : Route} {dir dir' : Names} {name name' : Bytes} {content : Bytes}
    (route : t.route p = .ok r) (route' : t.route q = .ok s) (enter : t.enter r = .ok (dir, name))
    (enter' : t.enter s = .ok (dir', name')) (source : t.node? (dir ++ [name]) = some (.file content)) :
    t.rename p q =
      if t.node? (dir' ++ [name']) = some .directory then .error .isDirectory
      else if r.wantsDirectory || s.wantsDirectory then .error .notDirectory
      else if dir ++ [name] = dir' ++ [name'] then .ok t
      else .ok ((t.remove (dir ++ [name])).put (dir' ++ [name']) (.file content)) := by
  rw [rename, route, route']
  simp only [bind, Except.bind, enter, enter', source]
  cases target : t.node? (dir' ++ [name']) with
  | none => simp
  | some node =>
    cases node with
    | file => simp
    | directory => simp

/-- A rename that succeeds goes between paths that end in names. -/
theorem enter_of_rename {p q : Path} {t' : FileTree} (h : t.rename p q = .ok t') :
    ∃ r s dir name dir' name', t.route p = .ok r ∧ t.route q = .ok s ∧ t.enter r = .ok (dir, name) ∧
      t.enter s = .ok (dir', name') ∧ t.node? (dir ++ [name]) ≠ none ∧
      (t.node? (dir ++ [name]) = some .directory → dir ++ [name] <+: dir' ++ [name'] → dir ++ [name] = dir' ++ [name']) := by
  rw [rename, bind_eq_ok_iff] at h
  obtain ⟨r, route, h⟩ := h
  rw [bind_eq_ok_iff] at h
  obtain ⟨s, route', h⟩ := h
  rw [bind_eq_ok_iff] at h
  obtain ⟨⟨dir, name⟩, enter, h⟩ := h
  rw [bind_eq_ok_iff] at h
  obtain ⟨⟨dir', name'⟩, enter', h⟩ := h
  refine ⟨r, s, dir, name, dir', name', route, route', enter, enter', ?_, ?_⟩
  · intro none
    simp only [none] at h
    cases h
  · intro directory beginning
    simp only [directory] at h
    split at h
    · rename_i same
      simpa using same
    · rw [if_pos (List.isPrefixOf_iff_prefix.2 beginning)] at h
      cases h

end FileTree

end PhpRename
