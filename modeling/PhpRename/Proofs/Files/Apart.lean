import PhpRename.Proofs.Files.Apply
import PhpRename.Proofs.Files.Beside

/-!
# Files that lie apart

Carrying out the changes of a file comes to the same in two trees that differ by changes of files
that lie apart from it (`applyFile_beside`): the results are alike, and what changes in the one tree
changes in the other. It touches nothing but what belongs to the file (`applyFile_touches`).
-/

set_option autoImplicit false

namespace PhpRename

/-- Errors that differ at most in the reason for which a file operation failed. -/
def ApplyError.Alike (a b : ApplyError) : Prop := a = b ∨ ∃ p x y, a = .file p x ∧ b = .file p y

/-- Results that differ at most in the reason for which a file operation failed. -/
inductive AlikeResult {α : Type} : Except ApplyError α → Except ApplyError α → Prop
  | ok (a : α) : AlikeResult (.ok a) (.ok a)
  | error {e e' : ApplyError} (alike : e.Alike e') : AlikeResult (.error e) (.error e')

namespace FileTree

variable {t u : FileTree} {process : Nat} {mode : EditMode} {c d : FileChanges} {others : List FileChanges}
  {p target q : Path} {n w : Names}

/-! ## Moving beside other files -/

theorem Clear.congr (working : u.workingDirectory = t.workingDirectory) (h : t.Clear target q) : u.Clear target q := by
  constructor
  · rw [place_eq working, way_eq working]
    exact h.target_notMem
  · rw [place_eq working, way_eq working]
    exact h.place_notMem
  · rw [place_eq working, way_eq working, way_eq working]
    exact h.above

theorem Apart.congr (working : u.workingDirectory = t.workingDirectory) (h : t.Apart process c d) :
    u.Apart process c d := by
  refine ⟨fun q mem => ?_, fun target move q mem => (h.target target move q mem).congr working⟩
  rw [place_eq working, place_eq working]
  exact h.source q mem

theorem ApartFrom.congr (working : u.workingDirectory = t.workingDirectory) (h : t.ApartFrom process c others) :
    u.ApartFrom process c others :=
  fun d other => ⟨(h d other).1.congr working, (h d other).2.congr working⟩

/-- The ends of a file lead to the same beside files that lie apart. -/
theorem Beside.agree_ends (beside : Beside t u others) (formed : WellFormed t)
    (apart : t.ApartFrom process c others) (mem : q ∈ c.ends) : Agree t u q :=
  beside.agree formed (fun d other => (apart d other).1.source q mem)
    fun d other target move => (apart d other).1.target target move q (FileChanges.mem_uses_of_mem_ends mem process)

/-- The temporary name of a file stays unused beside files that lie apart. -/
theorem Beside.unused (beside : Beside t u others) (formed : WellFormed t) (apart : t.ApartFrom process c others)
    (some : c.edits ≠ []) (unused : t.has (temporaryPath c.path process) = false) :
    u.has (temporaryPath c.path process) = false := by
  refine Bool.eq_false_iff.2 fun has => ?_
  have before := beside.has_of_has formed (fun d other target move =>
    (apart d other).1.target target move _ (FileChanges.temporaryPath_mem_uses some process)) has
  rw [unused] at before
  cases before

/-- On the way of a target other files at most make directories. -/
theorem Beside.on_target (beside : Beside t u others)
    (apart : t.ApartFrom process c others) (move : c.move? = some target)
    (mem : w ∈ t.way target) : u.node? w = t.node? w ∨ t.node? w = none ∧ u.node? w = some .directory := by
  have used := FileChanges.mem_uses_of_mem_ends (FileChanges.target_mem_ends move) process
  rcases beside.on_way (fun d other τ move => (apart d other).1.target τ move target used) mem with
    same | ⟨-, -, d, other, here⟩ | ⟨before, after, -⟩
  · exact .inl same
  · have clear := (apart d other).2.target target move d.path (FileChanges.mem_uses_of_mem_ends d.path_mem_ends process)
    exact absurd mem (here ▸ clear.place_notMem)
  · exact .inr ⟨before, after⟩

theorem WellFormed.makeRoom (formed : WellFormed t) (target : Path) : WellFormed (t.makeRoom target).1 := by
  rcases makeRoom_eq target with refused | made
  · rw [refused t]
    exact formed
  · rw [(made t).1]
    exact formed.pave (formed.start (List.prefix_refl _))

/-- Where room was made all above the target are directories. -/
theorem ways_of_makeRoom (made : (t.makeRoom target).2 = .ok ()) :
    ∀ w ∈ lookups (t.startOf target) target.steps.dropLast, (t.makeRoom target).1.node? w = some .directory := by
  rcases makeRoom_eq target with refused | eq
  · rw [refused t] at made
    cases made
  · rw [(eq t).1]
    exact (follow_eq_ok_iff.1 (follow_of_pave ((eq t).2.1 made))).2.1

theorem makeRoom_beside (beside : Beside t u others)
    (apart : t.ApartFrom process c others) (move : c.move? = some target) :
    ((u.makeRoom target).2 = .ok () ↔ (t.makeRoom target).2 = .ok ()) ∧
      Carries t (t.makeRoom target).1 u (u.makeRoom target).1 := by
  rcases makeRoom_eq target with refused | eq
  · rw [refused t, refused u]
    exact ⟨⟨nofun, nofun⟩, .refl t u⟩
  · obtain ⟨success, carries⟩ := pave_beside fun w mem => beside.on_target apart move (mem_way_of_dropLast mem)
    rw [(eq t).1, (eq t).2, (eq u).1, (eq u).2, startOf_eq beside.working, success]
    exact ⟨Iff.rfl, carries⟩

theorem Takes.congr (takes : t.Takes q) (working : u.workingDirectory = t.workingDirectory)
    (place : u.node? (t.place q) = t.node? (t.place q))
    (ways : ∀ w ∈ lookups (u.startOf q) q.steps.dropLast, u.node? w = some .directory) : u.Takes q := by
  refine ⟨takes.regular, takes.name, takes.file, ways, ?_⟩
  rw [place_eq working, place]
  exact takes.free

/-- Renaming a file to a place whose directories are there. -/
theorem rename_beside (formed : WellFormed t) (beside : Beside t u others)
    (apart : t.ApartFrom process c others) (move : c.move? = some target)
    (file : t.isDirectory c.path = false)
    (ways : ∀ w ∈ lookups (t.startOf target) target.steps.dropLast, t.node? w = some .directory) :
    (∃ t' u', t.rename c.path target = .ok t' ∧ u.rename c.path target = .ok u' ∧ Carries t t' u u') ∨
      ∃ e e', t.rename c.path target = .error e ∧ u.rename c.path target = .error e' := by
  have source := beside.agree_ends formed apart c.path_mem_ends
  have ends := beside.agree_ends formed apart (FileChanges.target_mem_ends move)
  have ways' : ∀ w ∈ lookups (u.startOf target) target.steps.dropLast, u.node? w = some .directory := by
    rw [startOf_eq beside.working]
    exact fun w mem => ends.kept w (mem_way_of_dropLast mem) (ways w mem)
  have place (name : target.steps.getLast?.all (· == Path.dotDot) = false) :
      u.node? (t.place target) = t.node? (t.place target) := by
    obtain ⟨above, last, steps, up⟩ := concat_of_name name
    exact ends.place (by simp [way_of_name steps up])
  have both (n : Names) (content : Bytes) (found : t.find c.path = .ok (n, .file content)) (takes : t.Takes target) :
      ∃ t' u', t.rename c.path target = .ok t' ∧ u.rename c.path target = .ok u' ∧ Carries t t' u u' := by
    have found' := (source.find_iff _).2 found
    have here := node?_of_find found
    have here' := node?_of_find found'
    obtain ⟨t', renamed, moves⟩ := rename_of_takes found takes
    obtain ⟨u', renamed', moves'⟩ := rename_of_takes found' (takes.congr beside.working (place takes.name) ways')
    rw [place_eq beside.working] at moves'
    exact ⟨t', u', renamed, renamed', .of_moves here here' (place takes.name) takes.free moves moves'⟩
  cases renamed : t.rename c.path target with
  | ok t' =>
    obtain ⟨n, content, found, takes, -⟩ := moves_of_rename file renamed
    rw [← renamed]
    exact .inl (both n content found takes)
  | error e =>
    cases renamed' : u.rename c.path target with
    | error e' => exact .inr ⟨e, e', rfl, rfl⟩
    | ok u' =>
      obtain ⟨n, content, found', takes', -⟩ := moves_of_rename (source.isDirectory_eq.trans file) renamed'
      have same : t.node? (u.place target) = u.node? (u.place target) := by
        rw [place_eq beside.working]
        exact (place takes'.name).symm
      have takes := takes'.congr beside.working.symm same ways
      obtain ⟨t', -, renamed₁, -⟩ := both n content ((source.find_iff _).1 found') takes
      rw [renamed] at renamed₁
      cases renamed₁

/-- **Moving a file beside others.** -/
theorem moveFile_beside (formed : WellFormed t) (beside : Beside t u others)
    (apart : t.ApartFrom process c others) (move : c.move? = some target)
    (file : (t.makeRoom target).1.isDirectory c.path = false) :
    AlikeResult (t.moveFile c.path target).2 (u.moveFile c.path target).2 ∧
      Carries t (t.moveFile c.path target).1 u (u.moveFile c.path target).1 := by
  have ends := beside.agree_ends formed apart (FileChanges.target_mem_ends move)
  obtain ⟨success, carries⟩ := makeRoom_beside beside apart move
  have ways : (t.makeRoom target).2 = .ok () → _ := ways_of_makeRoom
  have formed' := formed.makeRoom target
  rw [moveFile, moveFile, ends.has_eq]
  split
  · -- The target is taken in both trees.
    exact ⟨.error (.inl rfl), .refl t u⟩
  · generalize t.makeRoom target = room at *
    generalize u.makeRoom target = room' at *
    obtain ⟨t₁, made⟩ := room
    obtain ⟨u₁, made'⟩ := room'
    simp only at success carries ways formed' file
    cases made with
    | error e =>
      cases made' with
      | error e' => exact ⟨.error (.inr ⟨target, e, e', rfl, rfl⟩), carries⟩
      | ok _ => cases success.1 rfl
    | ok _ =>
      cases made' with
      | error e' => cases success.2 rfl
      | ok _ =>
        -- With the directories made, the trees still differ by the others' changes only.
        have ways' := ways rfl
        rw [← startOf_eq carries.working.1] at ways'
        rcases rename_beside formed' (beside.carries carries) (apart.congr carries.working.1) move file ways' with
          ⟨t₂, u₂, renamed, renamed', carries'⟩ | ⟨e, e', refused, refused'⟩
        · simp only [renamed, renamed']
          exact ⟨.ok (), carries.trans carries'⟩
        · simp only [refused, refused']
          exact ⟨.error (.inr ⟨c.path, e, e', rfl, rfl⟩), carries⟩

/-! ## Editing beside other files -/

theorem rewrite_beside (agree : Agree t u c.path) (edits : List Edit) :
    AlikeResult (t.rewrite c edits) (u.rewrite c edits) := by
  have alike (e e' : FileError) : ApplyError.Alike (.file c.path e) (.file c.path e') := .inr ⟨c.path, e, e', rfl, rfl⟩
  rw [rewrite, rewrite]
  cases read : t.read c.path with
  | ok content =>
    rw [agree.read_iff.2 read]
    cases h : (Except.ok content : Except FileError Bytes).mapError (ApplyError.file c.path) >>= _ with
    | ok made => exact .ok made
    | error e => exact .error (.inl rfl)
  | error e =>
    cases read' : u.read c.path with
    | ok content =>
      rw [agree.read_iff.1 read'] at read
      cases read
    | error e' => exact .error (alike e e')

/-- **Editing a file beside others.** -/
theorem applyEdits_beside {edits : List Edit} (agree : Agree t u c.path)
    (unused : edits ≠ [] → t.has (temporaryPath c.path process) = false)
    (unused' : edits ≠ [] → u.has (temporaryPath c.path process) = false) :
    AlikeResult (t.applyEdits process c edits).2 (u.applyEdits process c edits).2 ∧
      Carries t (t.applyEdits process c edits).1 u (u.applyEdits process c edits).1 := by
  have alike := rewrite_beside agree edits
  rw [applyEdits, applyEdits]
  split
  · exact ⟨.ok _, .refl t u⟩
  · rename_i some
    have unused := unused (mt List.isEmpty_iff.2 some)
    have unused' := unused' (mt List.isEmpty_iff.2 some)
    generalize made : t.rewrite c edits = rewritten at alike
    generalize made' : u.rewrite c edits = rewritten' at alike
    cases alike with
    | error alike => exact ⟨.error alike, .refl t u⟩
    | ok contents =>
      obtain ⟨content, out⟩ := contents
      simp only
      split
      · exact ⟨.ok _, .refl t u⟩
      · obtain ⟨n, found⟩ := read_eq_ok_iff.1 (of_rewrite made).1
        have found' := (agree.find_iff _).2 found
        have here := node?_of_find found
        have here' := node?_of_find found'
        rcases replace_cases found unused out with ⟨long, refused⟩ | ⟨short, t', written, puts⟩
        · rcases replace_cases found' unused' out with ⟨-, refused'⟩ | ⟨short, -⟩
          · rw [refused, refused']
            exact ⟨.error (.inl rfl), .refl t u⟩
          · rw [long] at short
            cases short
        · rcases replace_cases found' unused' out with ⟨long, -⟩ | ⟨-, u', written', puts'⟩
          · rw [short] at long
            cases long
          · rw [written, written']
            exact ⟨.ok _, .of_puts here here' puts puts'⟩

/-! ## Changing beside other files -/

/-- Edits change nothing or the content of the file. -/
theorem applyEdits_puts {edits : List Edit} (unused : edits ≠ [] → t.has (temporaryPath c.path process) = false) :
    (t.applyEdits process c edits).1 = t ∨ ∃ old new,
      t.find c.path = .ok (t.place c.path, .file old) ∧
        Puts t (t.applyEdits process c edits).1 (t.place c.path) (.file new) := by
  rcases applyEdits_cases unused with ⟨_, same⟩ | same | ⟨t', n, content, out, made, found, -, -, puts⟩
  · exact .inl (by rw [same])
  · exact .inl (by rw [same])
  · obtain rfl := find_place found
    exact .inr ⟨content, out, found, by rwa [made]⟩

theorem WellFormed.applyEdits {edits : List Edit} (formed : WellFormed t)
    (unused : edits ≠ [] → t.has (temporaryPath c.path process) = false) :
    WellFormed (t.applyEdits process c edits).1 := by
  rcases applyEdits_puts unused with same | ⟨old, new, found, puts⟩
  · rw [same]
    exact formed
  · exact formed.puts (node?_of_find found) puts

/-- A path still finds a file while directories are kept. -/
theorem find_keeps {old new : Bytes} (keeps : KeepsDirectories t u) (working : u.workingDirectory = t.workingDirectory)
    (found : t.find p = .ok (n, .file old)) (here : u.node? n = some (.file new)) : u.find p = .ok (n, .file new) := by
  obtain ⟨r, dir, name, route, enter, wants, rfl, -⟩ := find_eq_file_iff.1 found
  exact find_eq_file_iff.2 ⟨r, dir, name, (route_eq working p).trans route, enter_keeps keeps enter, wants, rfl, here⟩

/-- A file that was edited is none of the directories that are made for its target. -/
theorem isDirectory_applyEdits {edits : List Edit}
    (unused : edits ≠ [] → t.has (temporaryPath c.path process) = false)
    (file : (t.makeRoom target).1.isDirectory c.path = false) :
    ((t.applyEdits process c edits).1.makeRoom target).1.isDirectory c.path = false := by
  rcases applyEdits_puts unused with same | ⟨old, new, found, puts⟩
  · rw [same]
    exact file
  · have here := node?_of_find found
    have grown := makeRoom_grown (t.applyEdits process c edits).1 target
    have there := grown.file_iff.2 ((puts.node _).trans (if_pos rfl))
    have keeps := (Carries.of_puts here here puts puts).keeps
    have found' := find_keeps (fun m dir => grown.keeps m (keeps m dir)) (grown.working.trans puts.working) found there
    rw [isDirectory, found']

theorem applyMove_beside (formed : WellFormed t) (beside : Beside t u others)
    (apart : t.ApartFrom process c others)
    (file : ∀ target ∈ c.move?, (t.makeRoom target).1.isDirectory c.path = false) (outcome : FileOutcome) :
    AlikeResult (t.applyMove mode c outcome).2 (u.applyMove mode c outcome).2 ∧
      Carries t (t.applyMove mode c outcome).1 u (u.applyMove mode c outcome).1 := by
  rw [applyMove, applyMove]
  cases move : c.move? with
  | none => exact ⟨.ok _, .refl t u⟩
  | some target =>
    simp only
    split
    · obtain ⟨alike, carries⟩ := moveFile_beside formed beside apart move (file target move)
      generalize t.moveFile c.path target = moved at *
      generalize u.moveFile c.path target = moved' at *
      obtain ⟨t', result⟩ := moved
      obtain ⟨u', result'⟩ := moved'
      cases alike with
      | ok => exact ⟨.ok _, carries⟩
      | error alike => exact ⟨.error alike, carries⟩
    · exact ⟨.ok _, .refl t u⟩

/-- **Changing a file beside others.** Changes of files that lie apart make no difference. -/
theorem applyFile_beside (formed : WellFormed t) (beside : Beside t u others)
    (apart : t.ApartFrom process c others)
    (unused : c.edits ≠ [] → t.has (temporaryPath c.path process) = false)
    (file : ∀ target ∈ c.move?, (t.makeRoom target).1.isDirectory c.path = false) (mode : EditMode) :
    AlikeResult (t.applyFile process mode c).2 (u.applyFile process mode c).2 ∧
      Carries t (t.applyFile process mode c).1 u (u.applyFile process mode c).1 := by
  have agree := beside.agree_ends formed apart c.path_mem_ends
  have unused (some : c.permitted mode ≠ []) := unused (FileChanges.edits_ne_nil some)
  obtain ⟨alike, carries⟩ := applyEdits_beside agree unused fun some =>
    beside.unused formed apart (FileChanges.edits_ne_nil some) (unused some)
  have formed' := formed.applyEdits unused
  have file' := fun target move => isDirectory_applyEdits unused (file target move)
  rw [applyFile, applyFile]
  split
  · exact ⟨.error (.inl rfl), .refl t u⟩
  · generalize t.applyEdits process c (c.permitted mode) = edited at *
    generalize u.applyEdits process c (c.permitted mode) = edited' at *
    obtain ⟨t₁, result⟩ := edited
    obtain ⟨u₁, result'⟩ := edited'
    cases alike with
    | error alike => exact ⟨.error alike, carries⟩
    | ok changed =>
      obtain ⟨alike', carries'⟩ := applyMove_beside formed' (beside.carries carries) (apart.congr carries.working.1) file' _
      exact ⟨alike', carries.trans carries'⟩

/-! ## What a file touches -/

/-- New content makes no difference to what may happen to a file. -/
theorem Touch.of_file {old new : Bytes} {after : Option Node} (h : Touch t c n (some (.file new)) after) :
    Touch t c n (some (.file old)) after := by
  cases h with
  | edit here => exact .edit here
  | leave here => exact .leave here
  | arrive move here _ => exact .arrive move here nofun

theorem moveFile_touches (move : c.move? = some target) (file : (t.makeRoom target).1.isDirectory c.path = false) :
    Beside t (t.moveFile c.path target).1 [c] := by
  have grown := makeRoom_grown t target
  have made : Beside t (t.makeRoom target).1 [c] := by
    refine ⟨grown.working, fun n => (grown.node n).imp_right ?_⟩
    rintro ⟨mem, before, after⟩
    rw [before, after]
    exact ⟨c, List.mem_singleton_self c, .make move mem⟩
  rw [moveFile]
  split
  · exact .refl t [c]
  · generalize t.makeRoom target = room at *
    obtain ⟨t₁, result⟩ := room
    cases result with
    | error e => exact made
    | ok _ =>
      simp only at *
      cases renamed : t₁.rename c.path target with
      | error e => exact made
      | ok t₂ =>
        obtain ⟨n, content, found, takes, moves⟩ := moves_of_rename file renamed
        refine ⟨moves.working.trans grown.working, fun m => ?_⟩
        rw [moves.node]
        split
        · rename_i there
          refine .inr ⟨c, List.mem_singleton_self c, .arrive move (by rw [there, place_eq grown.working]) fun directory => ?_⟩
          exact takes.free (there ▸ grown.keeps m directory)
        · split
          · rename_i there
            rw [there, grown.file_iff.1 (node?_of_find found)]
            exact .inr ⟨c, List.mem_singleton_self c, .leave (by rw [find_place found, place_eq grown.working])⟩
          · exact made.node m

theorem applyMove_touches (file : ∀ target ∈ c.move?, (t.makeRoom target).1.isDirectory c.path = false)
    (outcome : FileOutcome) : Beside t (t.applyMove mode c outcome).1 [c] := by
  rw [applyMove]
  cases move : c.move? with
  | none => exact .refl t [c]
  | some target =>
    have moved := moveFile_touches move (file target move)
    simp only
    split
    · generalize t.moveFile c.path target = result at *
      obtain ⟨t', _ | _⟩ := result
      · exact moved
      · exact moved
    · exact .refl t [c]

/-- **What a file touches.** -/
theorem applyFile_touches (unused : c.edits ≠ [] → t.has (temporaryPath c.path process) = false)
    (file : ∀ target ∈ c.move?, (t.makeRoom target).1.isDirectory c.path = false) (mode : EditMode) :
    Beside t (t.applyFile process mode c).1 [c] := by
  have unused (some : c.permitted mode ≠ []) := unused (FileChanges.edits_ne_nil some)
  have edited := applyEdits_puts unused
  have file' := fun target move => isDirectory_applyEdits unused (file target move)
  -- An edit that comes before the move is part of whatever happens to the file.
  have after {t' : FileTree} (moved : Beside (t.applyEdits process c (c.permitted mode)).1 t' [c]) : Beside t t' [c] := by
    rcases edited with same | ⟨old, new, found, puts⟩
    · rwa [same] at moved
    · have here := node?_of_find found
      refine ⟨moved.working.trans puts.working, fun n => ?_⟩
      have node := moved.node n
      rw [puts.node] at node
      split at node
      · rename_i there
        rcases node with same | ⟨d, mem, touch⟩
        · rw [same, there, here]
          exact .inr ⟨c, List.mem_singleton_self c, .edit rfl⟩
        · rw [there, here]
          rw [there] at touch
          exact .inr ⟨d, mem, (touch.congr puts.working.symm).of_file⟩
      · exact node.imp_right fun ⟨d, mem, touch⟩ => ⟨d, mem, touch.congr puts.working.symm⟩
  rw [applyFile]
  split
  · exact .refl t [c]
  · generalize t.applyEdits process c (c.permitted mode) = result at *
    obtain ⟨t₁, _ | changed⟩ := result
    · exact after (.refl t₁ [c])
    · exact after (applyMove_touches file' _)

end FileTree

end PhpRename
