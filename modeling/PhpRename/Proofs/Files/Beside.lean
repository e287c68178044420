import PhpRename.Files.Apply
import PhpRename.Proofs.Files.Place

/-!
# Trees after changes of other files

The changes of a file touch its place, the place that it is moved to, and missing directories on the
way there (`Touch`). A path out of the way of such changes leads to the same nodes before and after
them (`Beside.agree`), and a change that is carried over from the one tree to the other leaves the
trees beside each other (`Beside.carries`).
-/

set_option autoImplicit false

namespace PhpRename

namespace FileChanges

variable {c : FileChanges} {target q : Path}

/-- The path of a file and the one that it is to be moved to. -/
def ends (c : FileChanges) : List Path := c.path :: c.move?.toList

/-- The paths that are used to change a file: its ends, and the temporary one where there are edits. -/
def uses (c : FileChanges) (process : Nat) : List Path :=
  (if c.edits.isEmpty then [] else [FileTree.temporaryPath c.path process]) ++ c.ends

theorem path_mem_ends (c : FileChanges) : c.path ∈ c.ends := List.mem_cons_self

theorem target_mem_ends (move : c.move? = some target) : target ∈ c.ends := by simp [ends, move]

theorem mem_uses_of_mem_ends (mem : q ∈ c.ends) (process : Nat) : q ∈ c.uses process := List.mem_append_right _ mem

theorem temporaryPath_mem_uses (some : c.edits ≠ []) (process : Nat) :
    FileTree.temporaryPath c.path process ∈ c.uses process := by
  simp [uses, some]

/-- Edits are permitted only where there are some. -/
theorem edits_ne_nil {mode : EditMode} (some : c.permitted mode ≠ []) : c.edits ≠ [] := by
  intro none
  rw [permitted, none, List.filter_nil] at some
  exact some rfl

end FileChanges

namespace FileTree

variable {t t' t'' u u' u'' : FileTree} {process : Nat} {c d : FileChanges} {others : List FileChanges}
  {target q : Path} {n w : Names}

/-! ## What is touched -/

/-- How the changes of a file can change a node. -/
inductive Touch (t : FileTree) (d : FileChanges) (n : Names) : Option Node → Option Node → Prop
  | edit {old new : Bytes} (here : n = t.place d.path) : Touch t d n (some (.file old)) (some (.file new))
  | leave {old : Bytes} (here : n = t.place d.path) : Touch t d n (some (.file old)) none
  | arrive {target : Path} {old : Option Node} {content : Bytes} (move : d.move? = some target)
      (here : n = t.place target) (free : old ≠ some .directory) : Touch t d n old (some (.file content))
  | make {target : Path} (move : d.move? = some target) (here : n ∈ t.way target) :
      Touch t d n none (some .directory)

/-- One tree is another one after some changes of other files. -/
structure Beside (t u : FileTree) (others : List FileChanges) : Prop where
  working : u.workingDirectory = t.workingDirectory
  node : ∀ n, u.node? n = t.node? n ∨ ∃ d ∈ others, Touch t d n (t.node? n) (u.node? n)

theorem Beside.refl (t : FileTree) (others : List FileChanges) : Beside t t others := ⟨rfl, fun _ => .inl rfl⟩

theorem Touch.congr (working : u.workingDirectory = t.workingDirectory) {a b : Option Node} (h : Touch t d n a b) :
    Touch u d n a b := by
  cases h with
  | edit here => exact .edit (by rwa [place_eq working])
  | leave here => exact .leave (by rwa [place_eq working])
  | arrive move here free => exact .arrive move (by rwa [place_eq working]) free
  | make move here => exact .make move (by rwa [way_eq working])

/-! ## Lying apart -/

/-- A move to `target` is out of the way of the path `q`: neither lies at or below the other, and
what they share on their ways is above `q`, so that no directory which `q` enters and leaves again is
made by the move. -/
structure Clear (t : FileTree) (target q : Path) : Prop where
  target_notMem : t.place target ∉ t.way q
  place_notMem : t.place q ∉ t.way target
  above : ∀ w ∈ t.way q, w ∈ t.way target → w <+: t.place q

instance (t : FileTree) (target q : Path) : Decidable (t.Clear target q) :=
  decidable_of_iff (t.place target ∉ t.way q ∧ t.place q ∉ t.way target ∧
    ∀ w ∈ t.way q, w ∈ t.way target → w <+: t.place q) ⟨fun ⟨a, b, c⟩ => ⟨a, b, c⟩, fun ⟨a, b, c⟩ => ⟨a, b, c⟩⟩

/-- For paths that never go up it is enough that neither place lies at or below the other. -/
theorem Clear.of_plain (plain : Path.dotDot ∉ target.steps) (plain' : Path.dotDot ∉ q.steps)
    (below : ¬ t.place target <+: t.place q) (above : ¬ t.place q <+: t.place target) : t.Clear target q :=
  ⟨fun mem => below (mem_way_plain plain' mem), fun mem => above (mem_way_plain plain mem),
    fun _ mem _ => mem_way_plain plain' mem⟩

/-- The changes of `d` leave the paths of `c` alone. -/
structure Apart (t : FileTree) (process : Nat) (c d : FileChanges) : Prop where
  source : ∀ q ∈ c.ends, t.place q ≠ t.place d.path
  target : ∀ target ∈ d.move?, ∀ q ∈ c.uses process, t.Clear target q

instance (t : FileTree) (process : Nat) (c d : FileChanges) : Decidable (t.Apart process c d) :=
  decidable_of_iff ((∀ q ∈ c.ends, t.place q ≠ t.place d.path) ∧
    ∀ target ∈ d.move?, ∀ q ∈ c.uses process, t.Clear target q) ⟨fun ⟨a, b⟩ => ⟨a, b⟩, fun ⟨a, b⟩ => ⟨a, b⟩⟩

/-- Neither a file nor any of the others touches what belongs to the other. -/
def ApartFrom (t : FileTree) (process : Nat) (c : FileChanges) (others : List FileChanges) : Prop :=
  ∀ d ∈ others, t.Apart process c d ∧ t.Apart process d c

/-- A path leads to the same in two trees. -/
structure Agree (t u : FileTree) (q : Path) : Prop where
  working : u.workingDirectory = t.workingDirectory
  place : t.place q ∈ t.way q → u.node? (t.place q) = t.node? (t.place q)
  kept : ∀ w ∈ t.way q, t.node? w = some .directory → u.node? w = some .directory
  old : ∀ w ∈ t.way q, u.node? w = some .directory → t.node? w = some .directory ∨ t.node? w = none
  found : (∀ w ∈ t.way q, u.node? w ≠ none) → ∀ w ∈ t.way q, t.node? w ≠ none

namespace Agree

theorem directories_iff (h : Agree t u q) :
    (∀ w ∈ t.way q, t.node? w = some .directory) ↔ ∀ w ∈ t.way q, u.node? w = some .directory := by
  refine ⟨fun ways w mem => h.kept w mem (ways w mem), fun ways w mem => ?_⟩
  have present := h.found (fun w mem => by simp [ways w mem]) w mem
  exact (h.old w mem (ways w mem)).resolve_right present

/-- A path finds the same. -/
theorem find_iff (h : Agree t u q) (node : Node) : u.find q = .ok (n, node) ↔ t.find q = .ok (n, node) := by
  cases last : q.steps.getLast?.all (· == Path.dotDot) with
  | true => rw [find_of_no_name last, find_of_no_name last, way_eq h.working, place_eq h.working, h.directories_iff]
  | false =>
    obtain ⟨above, name, steps, up⟩ := concat_of_name last
    have way := way_of_name (t := t) steps up
    have before (w : Names) (mem : w ∈ lookups (t.startOf q) above) : w ∈ t.way q := by
      rw [way]
      exact List.mem_append_left _ mem
    have ends : t.place q ∈ t.way q := by simp [way]
    rw [find_of_name steps up, find_of_name steps up, startOf_eq h.working, place_eq h.working]
    constructor
    · rintro ⟨regular, ways, rfl, here, wants⟩
      have present : ∀ w ∈ t.way q, t.node? w ≠ none := by
        refine h.found fun w mem => ?_
        rw [way, List.mem_append, List.mem_singleton] at mem
        rcases mem with mem | rfl
        · simp [ways w mem]
        · simp [here]
      refine ⟨regular, fun w mem => ?_, rfl, h.place ends ▸ here, wants⟩
      exact (h.old w (before w mem) (ways w mem)).resolve_right (present w (before w mem))
    · rintro ⟨regular, ways, rfl, here, wants⟩
      exact ⟨regular, fun w mem => h.kept w (before w mem) (ways w mem), rfl, (h.place ends).trans here, wants⟩

theorem has_eq (h : Agree t u q) : u.has q = t.has q := by
  rw [Bool.eq_iff_iff, has_iff, has_iff]
  simp only [h.find_iff]

theorem isDirectory_eq (h : Agree t u q) : u.isDirectory q = t.isDirectory q := by
  rw [Bool.eq_iff_iff, isDirectory_iff, isDirectory_iff]
  simp only [h.find_iff]

theorem read_iff (h : Agree t u q) {content : Bytes} : u.read q = .ok content ↔ t.read q = .ok content := by
  rw [read_eq_ok_iff, read_eq_ok_iff]
  simp only [h.find_iff]

end Agree

/-- The nodes on the way of a path, after changes out of its way: some files are changed or gone, and
some directories above its end are new. -/
theorem Beside.on_way (beside : Beside t u others) (clear : ∀ d ∈ others, ∀ target ∈ d.move?, t.Clear target q)
    (mem : w ∈ t.way q) : u.node? w = t.node? w ∨
      ((∃ content, t.node? w = some (.file content)) ∧ u.node? w ≠ some .directory ∧ ∃ d ∈ others, w = t.place d.path) ∨
      (t.node? w = none ∧ u.node? w = some .directory ∧ w <+: t.place q ∧ w ≠ t.place q) := by
  rcases beside.node w with same | ⟨d, other, touch⟩
  · exact .inl same
  right
  generalize before : t.node? w = a at touch
  generalize after : u.node? w = b at touch
  cases touch with
  | edit here => exact .inl ⟨⟨_, rfl⟩, nofun, d, other, here⟩
  | leave here => exact .inl ⟨⟨_, rfl⟩, nofun, d, other, here⟩
  | arrive move here free => exact absurd mem (here ▸ (clear d other _ move).target_notMem)
  | make move here =>
    refine .inr ⟨rfl, rfl, (clear d other _ move).above w mem here, ?_⟩
    rintro rfl
    exact (clear d other _ move).place_notMem here

/-- What lies below something that is missing is missing as well. -/
theorem WellFormed.none_of_above (formed : WellFormed t) (missing : t.node? w = none) (above : w <+: n) (ne : w ≠ n) :
    t.node? n = none := by
  by_contra present
  rw [formed.above present above ne] at missing
  cases missing

/-- When the end of a path is found, the directories above it were there before. -/
theorem Beside.found (beside : Beside t u others) (formed : WellFormed t)
    (clear : ∀ d ∈ others, ∀ target ∈ d.move?, t.Clear target q)
    (present : ∀ w ∈ t.way q, u.node? w ≠ none) : ∀ w ∈ t.way q, t.node? w ≠ none := by
  intro w mem missing
  have high : w <+: t.place q ∧ w ≠ t.place q := by
    rcases beside.on_way clear mem with same | ⟨⟨_, file⟩, -⟩ | ⟨-, -, high⟩
    · exact absurd (same.trans missing) (present w mem)
    · rw [missing] at file
      cases file
    · exact high
  cases last : q.steps.getLast?.all (· == Path.dotDot) with
  | false =>
    -- The end has a name and is there in both trees, so what is above it was there.
    obtain ⟨above, name, steps, up⟩ := concat_of_name last
    have ends : t.place q ∈ t.way q := by simp [way_of_name steps up]
    have none := formed.none_of_above missing high.1 high.2
    rcases beside.on_way clear ends with same | ⟨⟨_, file⟩, -⟩ | ⟨-, -, -, ne⟩
    · exact present _ ends (same.trans none)
    · rw [none] at file
      cases file
    · exact ne rfl
  | true =>
    -- The last step goes up from a directory below the end, which no other file has made.
    rcases List.eq_nil_or_concat q.steps with steps | ⟨above, step, steps⟩
    · rw [way, steps] at mem
      cases mem
    rw [List.concat_eq_append] at steps
    have up : step = Path.dotDot := by simpa [steps] using last
    subst up
    have way : t.way q = lookups (t.startOf q) above := by
      rw [FileTree.way, steps, lookups_append]
      exact List.append_nil _
    have place : t.place q = (reach (t.startOf q) above).dropLast := by
      rw [FileTree.place, steps, reach_append]
      rfl
    have passed := mem_lookups_of_above (n := reach (t.startOf q) above) (.inl rfl) (List.prefix_refl _)
    generalize reach (t.startOf q) above = bottom at place passed
    have below : t.place q <+: bottom ∧ t.place q ≠ bottom := by
      refine ⟨place ▸ List.dropLast_prefix bottom, fun same => ?_⟩
      have top : bottom = [] := by
        have length := congrArg List.length (place.symm.trans same)
        rw [List.length_dropLast] at length
        exact List.eq_nil_of_length_eq_zero (by omega)
      rw [same, top] at high
      exact high.2 (List.prefix_nil.1 high.1)
    have ne : w ≠ bottom := by
      rintro rfl
      exact below.2 (below.1.eq_of_length_le high.1.length_le)
    have none := formed.none_of_above missing (high.1.trans below.1) ne
    rcases passed with mem | start
    · rw [← way] at mem
      rcases beside.on_way clear mem with same | ⟨⟨_, file⟩, -⟩ | ⟨-, -, high, -⟩
      · exact present _ mem (same.trans none)
      · rw [none] at file
        cases file
      · exact below.2 (below.1.eq_of_length_le high.length_le)
    · rw [formed.start start] at none
      cases none

/-- A path finds nothing after changes out of its way that it did not find before. -/
theorem Beside.has_of_has (beside : Beside t u others) (formed : WellFormed t)
    (clear : ∀ d ∈ others, ∀ target ∈ d.move?, t.Clear target q) (has : u.has q = true) : t.has q = true := by
  have directory (present : ∀ w ∈ t.way q, u.node? w ≠ none) (w : Names) (mem : w ∈ t.way q)
      (after : u.node? w = some .directory) : t.node? w = some .directory := by
    rcases beside.on_way clear mem with same | ⟨-, other, -⟩ | ⟨missing, -⟩
    · exact same.symm.trans after
    · exact absurd after other
    · exact absurd missing (beside.found formed clear present w mem)
  obtain ⟨n, node, found⟩ := has_iff.1 has
  cases last : q.steps.getLast?.all (· == Path.dotDot) with
  | true =>
    obtain ⟨regular, ways, -, -⟩ := (find_of_no_name last).1 found
    rw [way_eq beside.working] at ways
    have present : ∀ w ∈ t.way q, u.node? w ≠ none := fun w mem => by simp [ways w mem]
    exact has_iff.2 ⟨_, _, (find_of_no_name last).2
      ⟨regular, fun w mem => directory present w mem (ways w mem), rfl, rfl⟩⟩
  | false =>
    obtain ⟨above, name, steps, up⟩ := concat_of_name last
    have way := way_of_name (t := t) steps up
    obtain ⟨regular, ways, rfl, here, wants⟩ := (find_of_name steps up).1 found
    rw [startOf_eq beside.working] at ways
    rw [place_eq beside.working] at here
    have present : ∀ w ∈ t.way q, u.node? w ≠ none := by
      intro w mem
      rw [way, List.mem_append, List.mem_singleton] at mem
      rcases mem with mem | rfl
      · simp [ways w mem]
      · simp [here]
    have before (w : Names) (mem : w ∈ lookups (t.startOf q) above) : t.node? w = some .directory :=
      directory present w (way ▸ List.mem_append_left _ mem) (ways w mem)
    -- A file at the end may have been changed, but has not become one.
    obtain ⟨old, there, wants'⟩ : ∃ old, t.node? (t.place q) = some old ∧ (old ≠ .directory → wantsDirectory q = false) := by
      rcases beside.on_way clear (show t.place q ∈ t.way q by simp [way]) with same | ⟨⟨_, file⟩, other, -⟩ | ⟨-, -, -, ne⟩
      · exact ⟨node, same ▸ here, wants⟩
      · refine ⟨_, file, fun _ => wants ?_⟩
        rintro rfl
        exact other here
      · exact absurd rfl ne
    exact has_iff.2 ⟨_, old, (find_of_name steps up).2 ⟨regular, before, rfl, there, wants'⟩⟩

/-- Changes out of the way of a path do not change where it leads. -/
theorem Beside.agree (beside : Beside t u others) (formed : WellFormed t)
    (source : ∀ d ∈ others, t.place q ≠ t.place d.path)
    (clear : ∀ d ∈ others, ∀ target ∈ d.move?, t.Clear target q) : Agree t u q where
  working := beside.working
  place ends := by
    rcases beside.on_way clear ends with same | ⟨-, -, d, other, here⟩ | ⟨-, -, -, ne⟩
    · exact same
    · exact absurd here (source d other)
    · exact absurd rfl ne
  kept w mem directory := by
    rcases beside.on_way clear mem with same | ⟨⟨_, file⟩, -⟩ | ⟨-, after, -⟩
    · exact same.trans directory
    · rw [directory] at file
      cases file
    · exact after
  old w mem directory := by
    rcases beside.on_way clear mem with same | ⟨-, other, -⟩ | ⟨before, -⟩
    · exact .inl (same.symm.trans directory)
    · exact absurd directory other
    · exact .inr before
  found := beside.found formed clear

/-! ## Carrying over -/

/-- A change of one tree is carried over to another one: where the first is changed, both have the
same nodes afterwards. -/
structure Carries (t t' u u' : FileTree) : Prop where
  working : t'.workingDirectory = t.workingDirectory ∧ u'.workingDirectory = u.workingDirectory
  keeps : KeepsDirectories t t'
  node : ∀ n, (t'.node? n = t.node? n ∧ u'.node? n = u.node? n) ∨ (u.node? n = t.node? n ∧ u'.node? n = t'.node? n) ∨
    (t.node? n = none ∧ u.node? n = some .directory ∧ t'.node? n = some .directory ∧ u'.node? n = some .directory)

namespace Carries

theorem refl (t u : FileTree) : Carries t t u u := ⟨⟨rfl, rfl⟩, fun _ => id, fun _ => .inl ⟨rfl, rfl⟩⟩

theorem trans (h : Carries t t' u u') (h' : Carries t' t'' u' u'') : Carries t t'' u u'' := by
  refine ⟨⟨h'.working.1.trans h.working.1, h'.working.2.trans h.working.2⟩, fun n dir => h'.keeps n (h.keeps n dir), ?_⟩
  intro n
  rcases h.node n with ⟨same, same'⟩ | ⟨before, after⟩ | ⟨none, there, made, made'⟩
  · rw [← same, ← same']
    exact h'.node n
  · rcases h'.node n with ⟨same, same'⟩ | ⟨-, after'⟩ | ⟨none, there, -⟩
    · exact .inr (.inl ⟨before, by rw [same, same', after]⟩)
    · exact .inr (.inl ⟨before, after'⟩)
    · rw [after, none] at there
      cases there
  · have kept := h'.keeps n made
    rcases h'.node n with ⟨-, same'⟩ | ⟨-, after'⟩ | ⟨none', -⟩
    · exact .inr (.inr ⟨none, there, kept, same'.trans made'⟩)
    · exact .inr (.inr ⟨none, there, kept, after'.trans kept⟩)
    · rw [made] at none'
      cases none'

/-- A node that is put where both trees have the same file. -/
theorem of_puts {old new : Bytes} (here : t.node? n = some (.file old)) (here' : u.node? n = some (.file old))
    (puts : Puts t t' n (.file new)) (puts' : Puts u u' n (.file new)) : Carries t t' u u' := by
  refine ⟨⟨puts.working, puts'.working⟩, fun m dir => ?_, fun m => ?_⟩
  · rw [puts.node, if_neg]
    · exact dir
    · rintro rfl
      rw [here] at dir
      cases dir
  · rw [puts.node, puts'.node]
    split
    · rename_i same
      rw [same, here, here']
      exact .inr (.inl ⟨rfl, rfl⟩)
    · exact .inl ⟨rfl, rfl⟩

/-- A file that is moved to where both trees have the same. -/
theorem of_moves {m : Names} {content : Bytes} (here : t.node? n = some (.file content))
    (here' : u.node? n = some (.file content)) (same : u.node? m = t.node? m) (free : t.node? m ≠ some .directory)
    (moves : Moves t t' n m content) (moves' : Moves u u' n m content) : Carries t t' u u' := by
  refine ⟨⟨moves.working, moves'.working⟩, fun k dir => ?_, fun k => ?_⟩
  · rw [moves.node, if_neg, if_neg]
    · exact dir
    · rintro rfl
      rw [here] at dir
      cases dir
    · rintro rfl
      exact free dir
  · rw [moves.node, moves'.node]
    split
    · rename_i at_
      exact .inr (.inl ⟨at_ ▸ same, rfl⟩)
    · split
      · rename_i at_
        exact .inr (.inl ⟨by rw [at_, here, here'], rfl⟩)
      · exact .inl ⟨rfl, rfl⟩

/-- A directory that is made where one tree lacks it, or both do. -/
theorem of_made (ne : n ≠ []) (free : t.node? n = none)
    (made : u.node? n = none ∧ u' = u.put n .directory ∨ u.node? n = some .directory ∧ u' = u) :
    Carries t (t.put n .directory) u u' ∧ ∀ m, u'.node? m = if m = n then some .directory else u.node? m := by
  have node' : ∀ m, u'.node? m = if m = n then some .directory else u.node? m := by
    intro m
    rcases made with ⟨-, rfl⟩ | ⟨there, rfl⟩
    · exact node?_put ne _ m
    · split
      · rename_i same
        rw [same, there]
      · rfl
  have working : u'.workingDirectory = u.workingDirectory := by
    rcases made with ⟨-, rfl⟩ | ⟨-, rfl⟩ <;> rfl
  refine ⟨⟨⟨rfl, working⟩, fun m dir => ?_, fun m => ?_⟩, node'⟩
  · rw [node?_put ne]
    split
    · rfl
    · exact dir
  · rw [node?_put ne, node']
    split
    · rename_i same
      subst same
      rcases made with ⟨free', -⟩ | ⟨there, -⟩
      · exact .inr (.inl ⟨free'.trans free.symm, rfl⟩)
      · exact .inr (.inr ⟨free, there, rfl, rfl⟩)
    · exact .inl ⟨rfl, rfl⟩

end Carries

/-- Other changes are still beside one that was carried over. -/
theorem Beside.carries (beside : Beside t u others) (h : Carries t t' u u') : Beside t' u' others := by
  refine ⟨h.working.2.trans (beside.working.trans h.working.1.symm), fun n => ?_⟩
  rcases h.node n with ⟨same, same'⟩ | ⟨-, after⟩ | ⟨-, -, made, made'⟩
  · rw [same, same']
    exact (beside.node n).imp_right fun ⟨d, other, touch⟩ => ⟨d, other, touch.congr h.working.1⟩
  · exact .inl after
  · exact .inl (made'.trans made.symm)

/-- Directories that are made on a way which differs at most in some directories that are there. -/
theorem pave_beside {dir : Names} {steps : List Bytes}
    (ways : ∀ w ∈ lookups dir steps, u.node? w = t.node? w ∨ t.node? w = none ∧ u.node? w = some .directory) :
    (u.pave dir steps).2 = (t.pave dir steps).2 ∧ Carries t (t.pave dir steps).1 u (u.pave dir steps).1 := by
  induction steps generalizing t u dir with
  | nil => exact ⟨rfl, .refl t u⟩
  | cons step rest ih =>
    by_cases up : step = Path.dotDot
    · subst up
      exact ih ways
    · rw [lookups_name up] at ways
      have later (w : Names) (mem : w ∈ lookups (dir ++ [step]) rest) := ways w (List.mem_cons_of_mem _ mem)
      rw [pave_name up, pave_name up]
      split
      · exact ⟨rfl, .refl t u⟩
      · -- After this step both trees have the directory, whether or not it was there.
        have made {u' : FileTree} (free : t.node? (dir ++ [step]) = none)
            (h : u.node? (dir ++ [step]) = none ∧ u' = u.put (dir ++ [step]) .directory ∨
              u.node? (dir ++ [step]) = some .directory ∧ u' = u) :
            (u'.pave (dir ++ [step]) rest).2 = ((t.put (dir ++ [step]) .directory).pave (dir ++ [step]) rest).2 ∧
              Carries t ((t.put (dir ++ [step]) .directory).pave (dir ++ [step]) rest).1 u
                (u'.pave (dir ++ [step]) rest).1 := by
          obtain ⟨carries, node'⟩ := Carries.of_made (by simp) free h
          have ways' : ∀ w ∈ lookups (dir ++ [step]) rest, u'.node? w = (t.put (dir ++ [step]) .directory).node? w ∨
              (t.put (dir ++ [step]) .directory).node? w = none ∧ u'.node? w = some .directory := by
            intro w mem
            rw [node?_put (by simp), node']
            split
            · exact .inl rfl
            · exact later w mem
          obtain ⟨success, carries'⟩ := ih ways'
          exact ⟨success, carries.trans carries'⟩
        rcases ways (dir ++ [step]) List.mem_cons_self with same | ⟨free, there⟩
        · rw [same]
          split
          · rename_i free
            exact made free (.inl ⟨same.trans free, rfl⟩)
          · exact ⟨rfl, .refl t u⟩
          · exact ih later
        · simp only [free, there]
          exact made free (.inr ⟨there, rfl⟩)

end FileTree

end PhpRename
