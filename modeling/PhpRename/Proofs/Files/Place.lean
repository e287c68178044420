import Mathlib.Data.List.Induction
import PhpRename.Proofs.Files.Tree

/-!
# Places

A path has a place, the names that its steps spell when each `..` takes the last one away, and a way,
the names that are looked up to get there. Steps can be followed exactly when all that is looked up
are directories, and then they lead to the place (`follow_eq_ok_iff`); directories are made by going
along the way (`makeDirectories_eq`).
-/

set_option autoImplicit false

namespace PhpRename.FileTree

variable {t u : FileTree} {p q : Path} {dir n w : Names} {steps : List Bytes}

/-! ## Places and ways -/

/-- The names after one more step. -/
def advance (n : Names) (step : Bytes) : Names := if step == Path.dotDot then n.dropLast else n ++ [step]

/-- The names that steps lead to. -/
def reach (dir : Names) (steps : List Bytes) : Names := steps.foldl advance dir

/-- The names that are looked up on the way along steps. -/
def lookups : Names → List Bytes → List Names
  | _, [] => []
  | dir, step :: rest =>
    if step == Path.dotDot then lookups dir.dropLast rest else (dir ++ [step]) :: lookups (dir ++ [step]) rest

/-- The place of a path. -/
def place (t : FileTree) (p : Path) : Names := reach (t.startOf p) p.steps

/-- The way of a path, the place included when the path ends in a name. -/
def way (t : FileTree) (p : Path) : List Names := lookups (t.startOf p) p.steps

theorem advance_up (n : Names) : advance n Path.dotDot = n.dropLast := rfl

theorem advance_name {step : Bytes} (name : step ≠ Path.dotDot) (n : Names) : advance n step = n ++ [step] := by
  rw [advance, if_neg (by simpa using name)]

theorem reach_append (dir : Names) (xs ys : List Bytes) : reach dir (xs ++ ys) = reach (reach dir xs) ys :=
  List.foldl_append

theorem reach_cons {step : Bytes} (name : step ≠ Path.dotDot) (dir : Names) (rest : List Bytes) :
    reach dir (step :: rest) = reach (dir ++ [step]) rest := by
  rw [← advance_name name]
  rfl

theorem lookups_up (dir : Names) (rest : List Bytes) : lookups dir (Path.dotDot :: rest) = lookups dir.dropLast rest := rfl

theorem lookups_name {step : Bytes} (name : step ≠ Path.dotDot) (dir : Names) (rest : List Bytes) :
    lookups dir (step :: rest) = (dir ++ [step]) :: lookups (dir ++ [step]) rest := by
  rw [lookups, if_neg (by simpa using name)]

theorem lookups_append (dir : Names) (xs ys : List Bytes) :
    lookups dir (xs ++ ys) = lookups dir xs ++ lookups (reach dir xs) ys := by
  induction xs generalizing dir with
  | nil => rfl
  | cons step xs ih =>
    by_cases up : step = Path.dotDot
    · subst up
      exact ih _
    · rw [List.cons_append, lookups_name up, lookups_name up, ih, reach_cons up, List.cons_append]

theorem begins_reach (plain : Path.dotDot ∉ steps) (dir : Names) : dir <+: reach dir steps := by
  induction steps generalizing dir with
  | nil => exact List.prefix_refl dir
  | cons step rest ih =>
    rw [List.mem_cons, not_or] at plain
    rw [reach_cons (Ne.symm plain.1)]
    exact (List.prefix_append dir [step]).trans (ih plain.2 _)

/-- What lies above the end of a way, or above something on it, is on the way too or above the
start. -/
theorem mem_lookups_of_above (ends : w = reach dir steps ∨ w ∈ lookups dir steps) (above : n <+: w) :
    n ∈ lookups dir steps ∨ n <+: dir := by
  induction steps generalizing dir with
  | nil =>
    rcases ends with rfl | mem
    · exact .inr above
    · cases mem
  | cons step rest ih =>
    by_cases up : step = Path.dotDot
    · subst up
      rcases ih ends with mem | above
      · exact .inl mem
      · exact .inr (above.trans (List.dropLast_prefix dir))
    · have ends : w = reach (dir ++ [step]) rest ∨ w = dir ++ [step] ∨ w ∈ lookups (dir ++ [step]) rest := by
        rw [lookups_name up, List.mem_cons, reach_cons up] at ends
        exact ends
      have later : n ∈ lookups (dir ++ [step]) rest ∨ n <+: dir ++ [step] := by
        rcases ends with ends | rfl | ends
        · exact ih (.inl ends)
        · exact .inr above
        · exact ih (.inr ends)
      rw [lookups_name up]
      rcases later with mem | above
      · exact .inl (List.mem_cons_of_mem _ mem)
      · rcases List.prefix_concat_iff.1 above with rfl | above
        · exact .inl List.mem_cons_self
        · exact .inr above

/-! ## Following -/

theorem isTooLong_up : isTooLong Path.dotDot = false := by decide +kernel

/-- **Following.** Steps lead somewhere when their names can be names and all that is looked up are
directories. -/
theorem follow_eq_ok_iff : t.follow dir steps = .ok n ↔
    (∀ step ∈ steps, isTooLong step = false) ∧ (∀ w ∈ lookups dir steps, t.node? w = some .directory) ∧
      n = reach dir steps := by
  induction steps generalizing dir with
  | nil =>
    rw [follow, Except.ok.injEq]
    exact ⟨fun h => ⟨nofun, nofun, h.symm⟩, fun h => h.2.2.symm⟩
  | cons step rest ih =>
    rw [follow_cons]
    by_cases up : step = Path.dotDot
    · subst up
      rw [if_pos (by simp), ih]
      simp [isTooLong_up, lookups_up, reach, advance_up]
    · rw [if_neg (by simpa using up), lookups_name up]
      cases long : isTooLong step with
      | true => simp [long]
      | false =>
        rw [if_neg (by simp), reach_cons up]
        cases here : t.node? (dir ++ [step]) with
        | none => simp [here]
        | some node =>
          cases node with
          | file content => simp [here]
          | directory =>
            simp only
            rw [ih]
            simp [long, here]

theorem place_of_name {above : List Bytes} {name : Bytes} (steps : p.steps = above ++ [name]) (up : name ≠ Path.dotDot) :
    t.place p = reach (t.startOf p) above ++ [name] := by
  rw [place, steps, reach_append, ← advance_name up]
  rfl

theorem way_of_name {above : List Bytes} {name : Bytes} (steps : p.steps = above ++ [name]) (up : name ≠ Path.dotDot) :
    t.way p = lookups (t.startOf p) above ++ [t.place p] := by
  rw [place_of_name steps up, way, steps, lookups_append, lookups_name up]
  rfl

theorem enter_place {r : Route} {name : Bytes} (route : t.route p = .ok r) (enter : t.enter r = .ok (dir, name)) :
    dir ++ [name] = t.place p := by
  obtain ⟨-, -, rfl⟩ := route_eq_ok_iff.1 route
  obtain ⟨above, steps, follow, up, -⟩ := enter_eq_ok_iff.1 enter
  obtain ⟨-, -, rfl⟩ := follow_eq_ok_iff.1 follow
  exact (place_of_name steps up).symm

/-- A path that never goes up passes what lies above its place. -/
theorem mem_way_plain (plain : Path.dotDot ∉ q.steps) (h : w ∈ t.way q) : w <+: t.place q := by
  rw [way] at h
  rw [place]
  generalize t.startOf q = dir at h ⊢
  generalize q.steps = steps at h plain ⊢
  induction steps generalizing dir with
  | nil => cases h
  | cons step rest ih =>
    rw [List.mem_cons, not_or] at plain
    have up : step ≠ Path.dotDot := Ne.symm plain.1
    rw [lookups_name up, List.mem_cons] at h
    rw [reach_cons up]
    rcases h with rfl | h
    · exact begins_reach plain.2 _
    · exact ih _ h plain.2

theorem mem_way_of_dropLast (h : w ∈ lookups (t.startOf q) q.steps.dropLast) : w ∈ t.way q := by
  rcases List.eq_nil_or_concat q.steps with steps | ⟨above, step, steps⟩
  · rw [steps] at h
    cases h
  · rw [List.concat_eq_append] at steps
    rw [steps, List.dropLast_concat] at h
    rw [way, steps, lookups_append]
    exact List.mem_append_left _ h

theorem place_eq (h : u.workingDirectory = t.workingDirectory) (p : Path) : u.place p = t.place p := by
  rw [place, place, startOf_eq h]

theorem way_eq (h : u.workingDirectory = t.workingDirectory) (p : Path) : u.way p = t.way p := by
  rw [way, way, startOf_eq h]

/-! ## Finding -/

/-- A path that can be looked up: it is not empty and has no NUL, and its steps can be names. -/
structure Regular (p : Path) : Prop where
  nul : (0 : UInt8) ∉ p.bytes
  nonempty : p.bytes ≠ []
  short : ∀ step ∈ p.steps, isTooLong step = false

theorem Regular.route (h : Regular p) : t.route p = .ok ⟨t.startOf p, p.steps, wantsDirectory p⟩ :=
  route_eq_ok_iff.2 ⟨h.nul, h.nonempty, rfl⟩

/-- A path ends in a name when it is regular, its last step is a name, and all that is looked up
before it are directories. -/
theorem enter_route_iff {name : Bytes} : (∃ r, t.route p = .ok r ∧ t.enter r = .ok (dir, name)) ↔
    Regular p ∧ name ≠ Path.dotDot ∧ ∃ above, p.steps = above ++ [name] ∧
      (∀ w ∈ lookups (t.startOf p) above, t.node? w = some .directory) ∧ dir = reach (t.startOf p) above := by
  constructor
  · rintro ⟨r, route, enter⟩
    obtain ⟨nul, nonempty, rfl⟩ := route_eq_ok_iff.1 route
    obtain ⟨above, steps, follow, up, short⟩ := enter_eq_ok_iff.1 enter
    obtain ⟨shorts, ways, rfl⟩ := follow_eq_ok_iff.1 follow
    simp only at steps ways
    refine ⟨⟨nul, nonempty, fun step mem => ?_⟩, up, above, steps, ways, rfl⟩
    rw [steps, List.mem_append, List.mem_singleton] at mem
    rcases mem with mem | rfl
    · exact shorts step mem
    · exact short
  · rintro ⟨regular, up, above, steps, ways, rfl⟩
    refine ⟨_, regular.route, enter_eq_ok_iff.2 ⟨above, steps, follow_eq_ok_iff.2 ⟨fun step mem => ?_, ways, rfl⟩, up, ?_⟩⟩
    · exact regular.short step (by rw [steps]; exact List.mem_append_left _ mem)
    · exact regular.short name (by rw [steps]; simp)

theorem enter_of_find {above : List Bytes} {name : Bytes} {node : Node} (steps : p.steps = above ++ [name])
    (up : name ≠ Path.dotDot) (h : t.find p = .ok (n, node)) : ∃ r dir, t.route p = .ok r ∧ t.enter r = .ok (dir, name) := by
  rw [find, bind_eq_ok_iff] at h
  obtain ⟨r, route, h⟩ := h
  rw [bind_eq_ok_iff] at h
  obtain ⟨dir, follow, h⟩ := h
  obtain ⟨-, -, rfl⟩ := route_eq_ok_iff.1 route
  simp only [steps, List.dropLast_concat, List.getLast?_concat] at follow h
  rw [if_neg (by simpa using up)] at h
  split at h
  · cases h
  · rename_i short
    exact ⟨_, dir, route, enter_eq_ok_iff.2 ⟨above, steps, follow, up, by simpa using short⟩⟩

/-- **Finding a name.** The place is looked up in the directories on the way. -/
theorem find_of_name {above : List Bytes} {name : Bytes} {node : Node} (steps : p.steps = above ++ [name])
    (up : name ≠ Path.dotDot) :
    t.find p = .ok (n, node) ↔ Regular p ∧ (∀ w ∈ lookups (t.startOf p) above, t.node? w = some .directory) ∧
      n = t.place p ∧ t.node? n = some node ∧ (node ≠ .directory → wantsDirectory p = false) := by
  have found {r : Route} {dir : Names} (route : t.route p = .ok r) (enter : t.enter r = .ok (dir, name)) :
      t.find p = .ok (n, node) ↔
        n = t.place p ∧ t.node? n = some node ∧ (node ≠ .directory → wantsDirectory p = false) := by
    have wants : r.wantsDirectory = wantsDirectory p := by
      obtain ⟨-, -, rfl⟩ := route_eq_ok_iff.1 route
      rfl
    rw [find_of_enter route enter, enter_place route enter, wants]
    split <;> grind
  constructor
  · intro h
    obtain ⟨r, dir, route, enter⟩ := enter_of_find steps up h
    obtain ⟨regular, -, above', steps', ways, -⟩ := enter_route_iff.1 ⟨r, route, enter⟩
    obtain ⟨rfl, -⟩ := List.append_inj' (steps.symm.trans steps') rfl
    exact ⟨regular, ways, (found route enter).1 h⟩
  · rintro ⟨regular, ways, rest⟩
    obtain ⟨r, route, enter⟩ := enter_route_iff.2 ⟨regular, up, above, steps, ways, rfl⟩
    exact (found route enter).2 rest

/-- A path that ends in no name leads to where its steps lead. -/
theorem find_eq_of_no_name (last : p.steps.getLast?.all (· == Path.dotDot) = true) :
    t.find p = (do
      let r ← t.route p
      let dir ← t.follow r.start r.steps
      .ok (dir, .directory)) := by
  rw [find]
  cases route : t.route p with
  | error e => rfl
  | ok r =>
    obtain ⟨-, -, rfl⟩ := route_eq_ok_iff.1 route
    rcases List.eq_nil_or_concat p.steps with steps | ⟨above, step, steps⟩
    · simp only [steps, bind, Except.bind]
      rfl
    · rw [List.concat_eq_append] at steps
      have up : step = Path.dotDot := by simpa [steps] using last
      subst up
      simp only [steps, follow_append, List.dropLast_concat, List.getLast?_concat, bind, Except.bind]
      cases t.follow (t.startOf p) above <;> rfl

/-- **Finding a directory without its name.** -/
theorem find_of_no_name {node : Node} (last : p.steps.getLast?.all (· == Path.dotDot) = true) :
    t.find p = .ok (n, node) ↔ Regular p ∧ (∀ w ∈ t.way p, t.node? w = some .directory) ∧
      n = t.place p ∧ node = .directory := by
  rw [find_eq_of_no_name last, bind_eq_ok_iff]
  constructor
  · rintro ⟨r, route, h⟩
    rw [bind_eq_ok_iff] at h
    obtain ⟨dir, follow, h⟩ := h
    cases h
    obtain ⟨nul, nonempty, rfl⟩ := route_eq_ok_iff.1 route
    obtain ⟨short, ways, reached⟩ := follow_eq_ok_iff.1 follow
    exact ⟨⟨nul, nonempty, short⟩, ways, reached, rfl⟩
  · rintro ⟨regular, ways, rfl, rfl⟩
    refine ⟨_, regular.route, ?_⟩
    rw [bind_eq_ok_iff]
    exact ⟨_, follow_eq_ok_iff.2 ⟨regular.short, ways, rfl⟩, rfl⟩

theorem find_place {content : Bytes} (found : t.find p = .ok (n, .file content)) : n = t.place p := by
  obtain ⟨r, dir, name, route, enter, -, rfl, -⟩ := find_eq_file_iff.1 found
  exact enter_place route enter

theorem has_iff : t.has p = true ↔ ∃ n node, t.find p = .ok (n, node) := by
  rw [has]
  cases t.find p with
  | error e => exact ⟨nofun, nofun⟩
  | ok found => exact ⟨fun _ => ⟨found.1, found.2, rfl⟩, fun _ => rfl⟩

theorem isDirectory_iff : t.isDirectory p = true ↔ ∃ n, t.find p = .ok (n, .directory) := by
  rw [isDirectory]
  cases t.find p with
  | error e => exact ⟨nofun, nofun⟩
  | ok found =>
    obtain ⟨n, node⟩ := found
    cases node with
    | file content => exact ⟨nofun, nofun⟩
    | directory => exact ⟨fun _ => ⟨n, rfl⟩, fun _ => rfl⟩

/-! ## Making directories -/

/-- Goes along steps and makes what is missing, up to something that is in the way. -/
def pave (t : FileTree) : Names → List Bytes → FileTree × Bool
  | _, [] => (t, true)
  | dir, step :: rest =>
    if step == Path.dotDot then t.pave dir.dropLast rest
    else if isTooLong step then (t, false)
    else
      match t.node? (dir ++ [step]) with
      | none => (t.put (dir ++ [step]) .directory).pave (dir ++ [step]) rest
      | some (.file _) => (t, false)
      | some .directory => t.pave (dir ++ [step]) rest

theorem pave_up (t : FileTree) (dir : Names) (rest : List Bytes) : t.pave dir (Path.dotDot :: rest) = t.pave dir.dropLast rest :=
  rfl

theorem pave_name {step : Bytes} (name : step ≠ Path.dotDot) (t : FileTree) (dir : Names) (rest : List Bytes) :
    t.pave dir (step :: rest) =
      if isTooLong step then (t, false)
      else
        match t.node? (dir ++ [step]) with
        | none => (t.put (dir ++ [step]) .directory).pave (dir ++ [step]) rest
        | some (.file _) => (t, false)
        | some .directory => t.pave (dir ++ [step]) rest := by
  rw [pave, if_neg (by simpa using name)]

theorem pave_append (t : FileTree) (dir : Names) (xs ys : List Bytes) :
    t.pave dir (xs ++ ys) =
      if (t.pave dir xs).2 then (t.pave dir xs).1.pave (reach dir xs) ys else ((t.pave dir xs).1, false) := by
  induction xs generalizing t dir with
  | nil => rfl
  | cons step xs ih =>
    by_cases up : step = Path.dotDot
    · subst up
      exact ih ..
    · rw [List.cons_append, pave_name up, pave_name up, reach_cons up]
      split
      · rfl
      · split
        · exact ih ..
        · rfl
        · exact ih ..

/-- Only what is missing on the way is made. -/
theorem pave_grown (t : FileTree) (dir : Names) (steps : List Bytes) :
    Grown t (t.pave dir steps).1 (· ∈ lookups dir steps) := by
  induction steps generalizing t dir with
  | nil => exact .refl _ _
  | cons step rest ih =>
    by_cases up : step = Path.dotDot
    · subst up
      exact ih ..
    · have later (t : FileTree) := (ih t (dir ++ [step])).mono fun n => List.mem_cons_of_mem (dir ++ [step])
      rw [pave_name up, lookups_name up]
      split
      · exact .refl _ _
      · split
        · rename_i free
          have made : Grown t (t.put (dir ++ [step]) .directory) (· ∈ (dir ++ [step]) :: lookups (dir ++ [step]) rest) := by
            refine ⟨rfl, fun n => ?_⟩
            rw [node?_put (by simp)]
            split
            · rename_i same
              subst same
              exact .inr ⟨List.mem_cons_self, free, rfl⟩
            · exact .inl rfl
          exact made.trans (later _)
        · exact .refl _ _
        · exact later _

/-- A way that was paved can be followed. -/
theorem follow_of_pave (paved : (t.pave dir steps).2 = true) :
    (t.pave dir steps).1.follow dir steps = .ok (reach dir steps) := by
  induction steps generalizing t dir with
  | nil => rfl
  | cons step rest ih =>
    by_cases up : step = Path.dotDot
    · subst up
      exact ih paved
    · rw [pave_name up] at paved ⊢
      rw [follow_cons, if_neg (by simpa using up), reach_cons up]
      split at paved
      · cases paved
      · rename_i short
        rw [if_neg short, if_neg short]
        split at paved
        · rename_i free
          have here : (t.put (dir ++ [step]) .directory).node? (dir ++ [step]) = some .directory := by
            rw [node?_put (by simp), if_pos rfl]
          simp only [(pave_grown _ (dir ++ [step]) rest).keeps _ here]
          exact ih paved
        · cases paved
        · rename_i here
          simp only [(pave_grown t (dir ++ [step]) rest).keeps _ here]
          exact ih paved

/-- Where all are directories there is nothing to make. -/
theorem pave_of_follow (h : t.follow dir steps = .ok n) : t.pave dir steps = (t, true) := by
  induction steps generalizing dir with
  | nil => rfl
  | cons step rest ih =>
    by_cases up : step = Path.dotDot
    · subst up
      exact ih h
    · rw [follow_cons, if_neg (by simpa using up)] at h
      rw [pave_name up]
      split at h
      · cases h
      · rename_i short
        rw [if_neg short]
        cases here : t.node? (dir ++ [step]) with
        | none =>
          rw [here] at h
          cases h
        | some node =>
          rw [here] at h
          cases node with
          | file content => cases h
          | directory => exact ih h

/-- What is in the way of following before anything is missing is in the way of paving. -/
theorem pave_of_follow_error {e : FileError} (h : t.follow dir steps = .error e) (present : e ≠ .notFound) :
    t.pave dir steps = (t, false) := by
  induction steps generalizing dir with
  | nil => cases h
  | cons step rest ih =>
    by_cases up : step = Path.dotDot
    · subst up
      exact ih h
    · rw [follow_cons, if_neg (by simpa using up)] at h
      rw [pave_name up]
      split at h
      · rename_i long
        rw [if_pos long]
      · rename_i short
        rw [if_neg short]
        cases here : t.node? (dir ++ [step]) with
        | none =>
          rw [here] at h
          cases h
          exact absurd rfl present
        | some node =>
          rw [here] at h
          cases node with
          | file content => rfl
          | directory => exact ih h

/-- What making the last directory of a way comes to. -/
def MakesLast (t : FileTree) (dir : Names) (steps : List Bytes) (paved : FileTree × Bool) : Prop :=
  match t.makeDirectory dir steps with
  | .ok t' => paved = (t', true)
  | .error _ => paved = (t, t.leadsToDirectory dir steps)

theorem makesLast_of_follow {above : List Bytes} {step : Bytes} (h : t.follow dir above = .ok n) :
    t.MakesLast dir (above ++ [step]) (t.pave n [step]) := by
  have leads : t.leadsToDirectory dir (above ++ [step]) = (t.follow n [step]).toOption.isSome := by
    rw [leadsToDirectory, follow_append, h]
    rfl
  have enter : t.enter ⟨dir, above ++ [step], true⟩ =
      if step == Path.dotDot then .error .busy else if isTooLong step then .error .nameTooLong else .ok (n, step) := by
    simp only [FileTree.enter, List.dropLast_concat, h, List.getLast?_concat, bind, Except.bind]
  rw [MakesLast, leads, follow_cons, makeDirectory, enter]
  by_cases up : step = Path.dotDot
  · subst up
    rfl
  · have name : (step == Path.dotDot) = false := by simpa using up
    rw [pave_name up, name]
    cases isTooLong step with
    | true => rfl
    | false =>
      cases here : t.node? (n ++ [step]) with
      | none => simp [here, pave]
      | some node => cases node <;> simp [here, pave, follow, Except.toOption]

theorem makesLast_of_pave {t' : FileTree} (ne : steps ≠ []) (paved : t.pave dir steps.dropLast = (t', true)) :
    t'.MakesLast dir steps (t.pave dir steps) := by
  have follow := follow_of_pave (show (t.pave dir steps.dropLast).2 = true by rw [paved])
  rw [paved] at follow
  rw [← List.dropLast_concat_getLast ne, pave_append, paved, if_pos rfl]
  exact makesLast_of_follow follow

/-- Where nothing is missing above the last directory there is nothing else to make. -/
theorem makesLast_of_present (ne : steps ≠ []) (present : t.makeDirectory dir steps ≠ .error .notFound) :
    t.MakesLast dir steps (t.pave dir steps) := by
  cases follow : t.follow dir steps.dropLast with
  | ok n => exact makesLast_of_pave ne (pave_of_follow follow)
  | error e =>
    have enter : t.enter ⟨dir, steps, true⟩ = .error e := by
      simp only [FileTree.enter, follow, bind, Except.bind]
    have refused : ∃ e', t.makeDirectory dir steps = .error e' := by
      rw [makeDirectory, enter]
      cases e <;> exact ⟨_, rfl⟩
    have found : e ≠ .notFound := by
      rintro rfl
      rw [makeDirectory, enter] at present
      exact present rfl
    obtain ⟨e', refused⟩ := refused
    rw [MakesLast, refused, leadsToDirectory, ← List.dropLast_concat_getLast ne, pave_append,
      pave_of_follow_error follow found, follow_append, follow]
    rfl

theorem pave_of_made {t' : FileTree} (made : t.makeDirectories dir steps = (t', .ok ()))
    (h : (t.makeDirectories dir steps).1 = (t.pave dir steps).1 ∧
      ((t.makeDirectories dir steps).2 = .ok () ↔ (t.pave dir steps).2 = true)) : t.pave dir steps = (t', true) := by
  rw [made] at h
  exact Prod.ext h.1.symm (h.2.1 rfl)

/-- **Making directories** goes along the way. -/
theorem makeDirectories_eq (t : FileTree) (dir : Names) (steps : List Bytes) :
    (t.makeDirectories dir steps).1 = (t.pave dir steps).1 ∧
      ((t.makeDirectories dir steps).2 = .ok () ↔ (t.pave dir steps).2 = true) := by
  fun_induction makeDirectories t dir steps with
  | case1 => exact ⟨rfl, fun _ => rfl, fun _ => rfl⟩
  | case2 steps ne t' made =>
    have last := makesLast_of_present ne (show t.makeDirectory dir steps ≠ _ by rw [made]; exact nofun)
    rw [MakesLast, made] at last
    simp [last]
  | case3 steps ne missing t' e above ih =>
    have stuck : (t.pave dir steps.dropLast).2 = false := by simpa [above] using ih.2
    rw [← List.dropLast_concat_getLast ne, pave_append, stuck]
    simp [← ih.1, above]
  | case4 steps ne missing t' above t'' made ih =>
    have last := makesLast_of_pave ne (pave_of_made above ih)
    rw [MakesLast, made] at last
    simp [last]
  | case5 steps ne missing t' above e refused leads ih =>
    have last := makesLast_of_pave ne (pave_of_made above ih)
    rw [MakesLast, refused] at last
    simp [last, leads]
  | case6 steps ne missing t' above e refused leads ih =>
    have last := makesLast_of_pave ne (pave_of_made above ih)
    rw [MakesLast, refused] at last
    simp [last, leads]
  | case7 steps ne e present refused leads =>
    have last := makesLast_of_present ne (show t.makeDirectory dir steps ≠ _ by rw [refused]; simpa using present)
    rw [MakesLast, refused] at last
    simp [last, leads]
  | case8 steps ne e present refused leads =>
    have last := makesLast_of_present ne (show t.makeDirectory dir steps ≠ _ by rw [refused]; simpa using present)
    rw [MakesLast, refused] at last
    simp [last, leads]

/-! ## Renaming -/

/-- A path that can be given to a file. -/
structure Takes (t : FileTree) (q : Path) : Prop where
  regular : Regular q
  name : q.steps.getLast?.all (· == Path.dotDot) = false
  file : wantsDirectory q = false
  ways : ∀ w ∈ lookups (t.startOf q) q.steps.dropLast, t.node? w = some .directory
  free : t.node? (t.place q) ≠ some .directory

/-- One tree is another one with a file moved. -/
structure Moves (t u : FileTree) (n m : Names) (content : Bytes) : Prop where
  working : u.workingDirectory = t.workingDirectory
  node : ∀ k, u.node? k = if k = m then some (.file content) else if k = n then none else t.node? k

theorem concat_of_name (h : p.steps.getLast?.all (· == Path.dotDot) = false) :
    ∃ above name, p.steps = above ++ [name] ∧ name ≠ Path.dotDot := by
  cases last : p.steps.getLast? with
  | none =>
    rw [last] at h
    cases h
  | some name =>
    obtain ⟨above, steps⟩ := List.getLast?_eq_some_iff.1 last
    refine ⟨above, name, steps, ?_⟩
    rw [last] at h
    simpa using h

/-- **Renaming a file** succeeds where its new path can be given to a file. -/
theorem rename_of_takes {q : Path} {content : Bytes} (found : t.find p = .ok (n, .file content)) (takes : t.Takes q) :
    ∃ t', t.rename p q = .ok t' ∧ Moves t t' n (t.place q) content := by
  obtain ⟨r, dir, name, route, enter, wants, rfl, here⟩ := find_eq_file_iff.1 found
  obtain ⟨above, name', steps, up⟩ := concat_of_name takes.name
  have ways := takes.ways
  rw [steps, List.dropLast_concat] at ways
  obtain ⟨s, route', enter'⟩ := enter_route_iff.2 ⟨takes.regular, up, above, steps, ways, rfl⟩
  have renamed := rename_file route route' enter enter' here
  have wants' : s.wantsDirectory = false := by
    obtain ⟨-, -, rfl⟩ := route_eq_ok_iff.1 route'
    exact takes.file
  rw [enter_place route' enter', if_neg takes.free, wants, wants', if_neg (by simp)] at renamed
  split at renamed
  · rename_i same
    refine ⟨t, renamed, rfl, fun k => ?_⟩
    rw [← same]
    split
    · rename_i at_
      rw [at_, here]
    · rfl
  · refine ⟨_, renamed, rfl, fun k => ?_⟩
    rw [node?_put, node?_remove (by simp)]
    rw [← enter_place route' enter']
    simp

theorem takes_of_rename {q : Path} {content : Bytes} {t' : FileTree} (found : t.find p = .ok (n, .file content))
    (h : t.rename p q = .ok t') : t.Takes q := by
  obtain ⟨r, s, dir, name, dir', name', route, route', enter, enter', -⟩ := enter_of_rename h
  obtain ⟨regular, up, above, steps, ways, -⟩ := enter_route_iff.1 ⟨s, route', enter'⟩
  obtain ⟨_, _, _, route₁, enter₁, file, rfl, here⟩ := find_eq_file_iff.1 found
  rw [route] at route₁
  cases route₁
  rw [enter] at enter₁
  cases enter₁
  rw [rename_file route route' enter enter' here, enter_place route' enter', file, Bool.false_or] at h
  split at h
  · cases h
  · rename_i free
    split at h
    · cases h
    · rename_i wants
      obtain ⟨-, -, rfl⟩ := route_eq_ok_iff.1 route'
      exact ⟨regular, by simpa [steps] using up, Bool.eq_false_iff.2 wants, by rwa [steps, List.dropLast_concat], free⟩

/-- What is renamed was found. -/
theorem find_of_rename {q : Path} {t' : FileTree} (h : t.rename p q = .ok t') : ∃ n node, t.find p = .ok (n, node) := by
  obtain ⟨r, s, dir, name, dir', name', route, route', enter, enter', present, -⟩ := enter_of_rename h
  rw [find_of_enter route enter]
  cases here : t.node? (dir ++ [name]) with
  | none => exact absurd here present
  | some node =>
    cases node with
    | directory => exact ⟨_, _, rfl⟩
    | file content =>
      cases wants : r.wantsDirectory with
      | false => exact ⟨_, _, rfl⟩
      | true =>
        rw [rename_file route route' enter enter' here, wants, Bool.true_or, if_pos rfl] at h
        split at h <;> cases h

/-- What is renamed, and is no directory, is a file that gets a path which can be given to it. -/
theorem moves_of_rename {t' : FileTree} (file : t.isDirectory p = false) (h : t.rename p q = .ok t') :
    ∃ n content, t.find p = .ok (n, .file content) ∧ t.Takes q ∧ Moves t t' n (t.place q) content := by
  obtain ⟨n, node, found⟩ := find_of_rename h
  cases node with
  | directory => exact absurd (isDirectory_iff.2 ⟨n, found⟩) (by simp [file])
  | file content =>
    have takes := takes_of_rename found h
    obtain ⟨t₁, renamed, moves⟩ := rename_of_takes found takes
    rw [h] at renamed
    cases renamed
    exact ⟨n, content, found, takes, moves⟩

/-! ## Well-formed trees -/

/-- Every node lies in a directory, and the working directory is one. -/
structure WellFormed (t : FileTree) : Prop where
  inside : ∀ n name, t.node? (n ++ [name]) ≠ none → t.node? n = some .directory
  working : t.node? t.workingDirectory = some .directory

namespace WellFormed

/-- What lies above a node is a directory. -/
theorem above (h : WellFormed t) (here : t.node? n ≠ none) (above : w <+: n) (ne : w ≠ n) :
    t.node? w = some .directory := by
  induction n using List.reverseRecOn with
  | nil => exact absurd (List.prefix_nil.1 above) ne
  | append_singleton n name ih =>
    have inside := h.inside n name here
    rcases List.prefix_concat_iff.1 above with same | above
    · exact absurd same ne
    · by_cases same : w = n
      · rw [same, inside]
      · exact ih (by simp [inside]) above same

theorem start (h : WellFormed t) (above : n <+: t.startOf p) : t.node? n = some .directory := by
  have here : t.node? (t.startOf p) = some .directory := by
    rw [startOf]
    split
    · rfl
    · exact h.working
  by_cases same : n = t.startOf p
  · rw [same, here]
  · exact h.above (by simp [here]) above same

/-- New content for a file. -/
theorem puts {old new : Bytes} (h : WellFormed t) (here : t.node? n = some (.file old))
    (puts : Puts t u n (.file new)) : WellFormed u := by
  have directory (m : Names) (dir : t.node? m = some .directory) : u.node? m = some .directory := by
    rw [puts.node, if_neg]
    · exact dir
    · rintro rfl
      rw [here] at dir
      cases dir
  refine ⟨fun m name present => directory m (h.inside m name ?_), ?_⟩
  · rw [puts.node] at present
    split at present
    · rename_i same
      simp [same, here]
    · exact present
  · rw [puts.working]
    exact directory _ h.working

/-- A new directory in a directory. -/
theorem put {name : Bytes} (h : WellFormed t) (here : t.node? dir = some .directory) :
    WellFormed (t.put (dir ++ [name]) .directory) := by
  have directory (m : Names) (here : t.node? m = some .directory) :
      (t.put (dir ++ [name]) .directory).node? m = some .directory := by
    rw [node?_put (by simp)]
    split
    · rfl
    · exact here
  refine ⟨fun m last present => directory m ?_, directory _ h.working⟩
  rw [node?_put (by simp)] at present
  split at present
  · rename_i same
    obtain ⟨rfl, -⟩ := List.append_inj' same rfl
    exact here
  · exact h.inside m last present

theorem pave (h : WellFormed t) (here : t.node? dir = some .directory) : WellFormed (t.pave dir steps).1 := by
  induction steps generalizing t dir with
  | nil => exact h
  | cons step rest ih =>
    by_cases up : step = Path.dotDot
    · subst up
      rw [pave_up]
      by_cases top : dir.dropLast = dir
      · exact ih h (by rwa [top])
      · exact ih h (h.above (by simp [here]) (List.dropLast_prefix dir) top)
    · rw [pave_name up]
      split
      · exact h
      · split
        · exact ih (h.put here) (by rw [node?_put (by simp), if_pos rfl])
        · exact h
        · rename_i there
          exact ih h there

end WellFormed

end PhpRename.FileTree
