import Mathlib.Control.Monad.Basic
import Mathlib.Data.List.Basic
import PhpRename.Files.Apply
import PhpRename.Proofs.Files.Place
import PhpRename.Proofs.Path.Normal

/-!
# What carrying out changes leaves behind

A file is written through a temporary sibling. Where nothing has the sibling's name, writing either
puts the new content in the place of the old one or changes nothing (`replace_cases`), and so do the
edits of a file. A move comes after the edits and makes directories first; when it fails, these
effects stay. `applyFile_failed` says exactly when a failed file leaves such a trace, and what it can
be.
-/

set_option autoImplicit false

namespace PhpRename.FileTree

open Ascii (byte)
open Utf8 (encode shown)

variable {t t' : FileTree} {process : Nat} {mode : EditMode} {c : FileChanges} {p target : Path}

/-! ## The temporary sibling -/

/-- The temporary name is the name as it is shown, between a dot and a number that ends in `.phpshift.tmp`. -/
theorem temporaryName_eq (name : Bytes) (process : Nat) :
    temporaryName name process =
      byte '.' :: (shown name ++ byte '.' :: (encode (toString process) ++ encode ".phpshift.tmp")) := by
  have dot : encode "." = [byte '.'] := by decide
  simp only [temporaryName, Utf8.encode_append, dot, shown, List.append_assoc, List.nil_append,
    List.cons_append]

theorem two_lt_length_temporaryName (name : Bytes) (process : Nat) : 2 < (temporaryName name process).length := by
  have tail : (encode ".phpshift.tmp").length = 13 := by decide
  rw [temporaryName_eq]
  simp only [List.length_cons, List.length_append, tail]
  omega

theorem isDigit_of_mem_toString {n : Nat} {c : Char} (h : c ∈ (toString n).toList) : c.isDigit = true := by
  rw [Nat.toString_eq_repr, Nat.repr_eq_ofList_toDigits, String.toList_ofList] at h
  exact Nat.isDigit_of_mem_toDigits (by decide) (by decide) h

/-- The temporary name adds digits and `.phpshift.tmp` to a name, and so no slash and no NUL. -/
theorem notMem_temporaryName {name : Bytes} {c : Char} (ascii : c.toNat < 0x80) (digit : c.isDigit = false)
    (other : byte c ∉ encode ".phpshift.tmp") (h : byte c ∉ name) : byte c ∉ temporaryName name process := by
  have small : (byte c).toNat < 0x80 := by rwa [Utf8.toNat_byte ascii]
  have dot : byte c ≠ byte '.' := by
    intro same
    rw [same] at other
    exact other (by decide)
  have number : byte c ∉ encode (toString process) := by
    intro mem
    obtain ⟨d, written, mem⟩ := List.mem_flatMap.1 mem
    have same : d.toNat = c.toNat := (Utf8.eq_of_mem_encode small mem).trans (Utf8.toNat_byte ascii)
    rw [Char.toNat_inj.1 same] at written
    rw [isDigit_of_mem_toString written] at digit
    cases digit
  rw [temporaryName_eq]
  simp only [List.mem_cons, List.mem_append, not_or]
  exact ⟨dot, fun mem => h (Utf8.mem_of_mem_shown small mem), dot, number, other⟩

/-- The route of the temporary sibling differs in the last step. -/
theorem route_temporaryPath {r : Route} {above : List Bytes} {name : Bytes} (route : t.route p = .ok r)
    (steps : r.steps = above ++ [name]) (up : name ≠ Path.dotDot) :
    t.route (temporaryPath p process) = .ok ⟨r.start, above ++ [temporaryName name process], false⟩ := by
  obtain ⟨nul, -, rfl⟩ := route_eq_ok_iff.1 route
  simp only at steps ⊢
  -- The name is a segment of the path, and the sibling's name is one as well.
  obtain ⟨slash, bytes, -, -⟩ := Path.of_mem_steps (show name ∈ p.steps by rw [steps]; simp)
  obtain ⟨q, parent⟩ := Path.parent?_isSome (show p.steps ≠ [] by rw [steps]; simp)
  obtain ⟨counts, start⟩ := Path.steps_parent parent
  have path : temporaryPath p process = q.push ⟨temporaryName name process⟩ := by
    rw [temporaryPath, Path.fileName?_of_steps steps up, Path.pop, parent]
    rfl
  have length := two_lt_length_temporaryName name process
  have relative : Path.isAbsolute ⟨temporaryName name process⟩ = false := by
    rw [Path.isAbsolute, temporaryName_eq]
    rfl
  have noSlash : byte '/' ∉ temporaryName name process :=
    notMem_temporaryName (by decide) (by decide) (by decide) slash
  have noNul : byte '\x00' ∉ temporaryName name process :=
    notMem_temporaryName (by decide) (by decide) (by decide) fun mem => nul (bytes _ mem)
  have loud : Path.isSilent (temporaryName name process) = false := by
    rw [← Bool.not_eq_true, Path.isSilent_iff]
    rintro (empty | dot)
    · rw [empty] at length
      cases length
    · rw [dot] at length
      exact absurd length (by decide)
  have last := Path.getLast?_segments_push (p := q) relative noSlash
  rw [path, route_eq_ok_iff]
  refine ⟨?_, ?_, ?_⟩
  · intro mem
    rcases Path.mem_push relative mem with mem | slash | mem
    · rcases Path.mem_parent parent mem with slash | mem
      · cases slash
      · exact nul mem
    · cases slash
    · exact noNul mem
  · intro empty
    rw [empty] at last
    have none : temporaryName name process = [] := (Option.some.inj last).symm
    rw [none] at length
    cases length
  · rw [wantsDirectory, last, startOf, startOf, Path.isAbsolute_push relative, start, Path.steps_push relative, counts,
      steps, List.dropLast_concat, Path.steps, Path.segments_of_notMem noSlash]
    simp [loud]

/-- Nothing has the temporary name that a path asks for. -/
theorem node?_eq_none_of_has {r : Route} {dir : Names} {name : Bytes} (route : t.route p = .ok r)
    (enter : t.enter r = .ok (dir, name)) (wants : r.wantsDirectory = false) (free : t.has p = false) :
    t.node? (dir ++ [name]) = none := by
  rw [has, find_of_enter route enter] at free
  cases here : t.node? (dir ++ [name]) with
  | none => rfl
  | some node =>
    rw [here] at free
    cases node with
    | file content =>
      simp only [wants] at free
      cases free
    | directory => cases free

/-- A new file that takes the place of another one in its directory puts its content there. -/
theorem rename_sibling {q : Path} {r s : Route} {dir : Names} {name sibling : Bytes} {old : Bytes}
    (route : t.route p = .ok r) (route' : t.route q = .ok s) (enter : t.enter r = .ok (dir, name))
    (enter' : t.enter s = .ok (dir, sibling)) (wants : r.wantsDirectory = false) (wants' : s.wantsDirectory = false)
    (here : t.node? (dir ++ [name]) = some (.file old)) (free : t.node? (dir ++ [sibling]) = none) (new : Bytes) :
    ∃ t', (t.put (dir ++ [sibling]) (.file new)).rename q p = .ok t' ∧ Puts t t' (dir ++ [name]) (.file new) := by
  have ne : dir ++ [name] ≠ dir ++ [sibling] := by
    intro same
    rw [same, free] at here
    cases here
  have put := node?_put (t := t) (show dir ++ [sibling] ≠ [] by simp) (.file new)
  -- The directories on the way are still there once the sibling is.
  have keeps : KeepsDirectories t (t.put (dir ++ [sibling]) (.file new)) := by
    intro m directory
    rw [put, if_neg]
    · exact directory
    · rintro rfl
      rw [free] at directory
      cases directory
  have source : (t.put (dir ++ [sibling]) (.file new)).node? (dir ++ [sibling]) = some (.file new) := by
    rw [put, if_pos rfl]
  have target : (t.put (dir ++ [sibling]) (.file new)).node? (dir ++ [name]) = some (.file old) := by
    rw [put, if_neg ne, here]
  have working : (t.put (dir ++ [sibling]) (.file new)).workingDirectory = t.workingDirectory := rfl
  have renamed := rename_file ((route_eq working q).trans route') ((route_eq working p).trans route)
    (enter_keeps keeps enter') (enter_keeps keeps enter) source
  rw [target, if_neg (by simp), wants, wants', if_neg (by simp), if_neg (Ne.symm ne)] at renamed
  refine ⟨_, renamed, ⟨rfl, fun m => ?_⟩⟩
  rw [node?_put (by simp), node?_remove (by simp), put]
  split
  · rfl
  · split
    · rename_i same
      rw [same, free]
    · rfl

theorem temporaryName_ne_up (name : Bytes) (process : Nat) : temporaryName name process ≠ Path.dotDot := by
  intro same
  have length := two_lt_length_temporaryName name process
  rw [same] at length
  exact absurd length (by decide)

/-- **Writing through a sibling.** A file that is there gets the new content, or stays as it is when
the sibling's name is too long. -/
theorem replace_cases {n : Names} {old : Bytes} (found : t.find p = .ok (n, .file old))
    (unused : t.has (temporaryPath p process) = false) (new : Bytes) :
    isTooLong (temporaryName (p.fileName?.getD []) process) = true ∧
        t.replace process p new = (t, .error .nameTooLong) ∨
      isTooLong (temporaryName (p.fileName?.getD []) process) = false ∧
        ∃ t', t.replace process p new = (t', .ok ()) ∧ Puts t t' n (.file new) := by
  obtain ⟨r, dir, name, route, enter, wants, rfl, here⟩ := find_eq_file_iff.1 found
  obtain ⟨above, steps, follow, up, short⟩ := enter_eq_ok_iff.1 enter
  have route' : t.route (temporaryPath p process) = _ := route_temporaryPath route steps up
  have notUp := temporaryName_ne_up name process
  have fileName : p.fileName? = some name := by
    obtain ⟨-, -, rfl⟩ := route_eq_ok_iff.1 route
    exact Path.fileName?_of_steps steps up
  rw [fileName, Option.getD_some]
  unfold FileTree.replace
  cases long : isTooLong (temporaryName name process) with
  | true =>
    have refused : t.enter ⟨r.start, above ++ [temporaryName name process], false⟩ = .error .nameTooLong := by
      unfold FileTree.enter
      simp only [List.dropLast_concat, follow, List.getLast?_concat, bind, Except.bind, long, if_true]
      rw [if_neg (by simpa using notUp)]
    simp [write_of_enter_error route' refused]
  | false =>
    have enter' : t.enter ⟨r.start, above ++ [temporaryName name process], false⟩ =
        .ok (dir, temporaryName name process) :=
      enter_eq_ok_iff.2 ⟨above, rfl, follow, notUp, long⟩
    have free := node?_eq_none_of_has route' enter' rfl unused
    obtain ⟨t', renamed, puts⟩ := rename_sibling route route' enter enter' wants rfl here free new
    refine .inr ⟨rfl, t', ?_, puts⟩
    simp only [write_of_none route' enter' free rfl, renamed]

/-! ## Edits -/

theorem mapError_eq_ok_iff {ε ε' α : Type} {x : Except ε α} {f : ε → ε'} {a : α} : x.mapError f = .ok a ↔ x = .ok a := by
  cases x with
  | error e => exact ⟨nofun, nofun⟩
  | ok b => simp [Except.mapError]

/-- Edits that can be carried out are made for the content that the file has. -/
theorem of_rewrite {edits : List Edit} {content out : Bytes} (h : t.rewrite c edits = .ok (content, out)) :
    t.read c.path = .ok content ∧ Edit.applyAll edits content = .ok out := by
  rw [rewrite, bind_eq_ok_iff] at h
  obtain ⟨found, read, h⟩ := h
  split at h
  · cases h
  · rw [bind_eq_ok_iff] at h
    obtain ⟨made, apply, h⟩ := h
    cases h
    exact ⟨mapError_eq_ok_iff.1 read, mapError_eq_ok_iff.1 apply⟩

/-- **Edits.** They are refused and change nothing, or there is nothing to change, or the content of
the file becomes what they make of it. -/
theorem applyEdits_cases {edits : List Edit} (unused : edits ≠ [] → t.has (temporaryPath c.path process) = false) :
    (∃ e, t.applyEdits process c edits = (t, .error e)) ∨ t.applyEdits process c edits = (t, .ok false) ∨
      ∃ t' n content out, t.applyEdits process c edits = (t', .ok true) ∧ t.find c.path = .ok (n, .file content) ∧
        Edit.applyAll edits content = .ok out ∧ out ≠ content ∧ Puts t t' n (.file out) := by
  unfold FileTree.applyEdits
  split
  · exact .inr (.inl rfl)
  rename_i some
  have unused := unused (mt List.isEmpty_iff.2 some)
  split
  · exact .inl ⟨_, rfl⟩
  · rename_i content out rewritten
    obtain ⟨read, made⟩ := of_rewrite rewritten
    obtain ⟨n, found⟩ := read_eq_ok_iff.1 read
    split
    · exact .inr (.inl rfl)
    · rename_i differs
      rcases replace_cases found unused out with ⟨-, refused⟩ | ⟨-, t', written, puts⟩
      · rw [refused]
        exact .inl ⟨_, rfl⟩
      · rw [written]
        exact .inr (.inr ⟨t', n, content, out, rfl, found, made, by simpa using differs, puts⟩)

/-! ## Moves -/

/-- Room for a path is made by the directories on the way to it, unless that way has a NUL. -/
theorem makeRoom_cases (target : Path) :
    (∀ t : FileTree, t.makeRoom target = (t, .error .nulByte)) ∨
      ∀ t : FileTree, t.makeRoom target = t.makeDirectories (t.startOf target) target.steps.dropLast := by
  have nothing : ∀ t : FileTree, t.makeDirectories (t.startOf target) [] = (t, .ok ()) := by
    intro t
    rw [makeDirectories, dif_pos rfl]
  unfold FileTree.makeRoom
  cases parent : target.parent? with
  | none =>
    right
    intro t
    rw [Path.steps_eq_nil_of_parent? parent]
    exact (nothing t).symm
  | some dir =>
    obtain ⟨steps, start⟩ := Path.steps_parent parent
    simp only [makePath, ← steps]
    by_cases empty : dir.bytes = []
    · right
      intro t
      have none : dir.steps = [] := by rw [Path.steps, empty]; rfl
      rw [if_pos (by simp [empty]), none]
      exact (nothing t).symm
    by_cases nul : (0 : UInt8) ∈ dir.bytes
    · left
      intro t
      rw [if_neg (by simpa using empty), FileTree.route, if_pos (by simpa using nul)]
    · right
      intro t
      have route : t.route dir = _ := route_eq_ok_iff.2 ⟨nul, empty, rfl⟩
      rw [if_neg (by simpa using empty), route]
      simp only
      rw [startOf, start]
      rfl

/-- Making room is going along the way, or is refused for a NUL. -/
theorem makeRoom_eq (target : Path) :
    (∀ t : FileTree, t.makeRoom target = (t, .error .nulByte)) ∨
      ∀ t : FileTree, (t.makeRoom target).1 = (t.pave (t.startOf target) target.steps.dropLast).1 ∧
        ((t.makeRoom target).2 = .ok () ↔ (t.pave (t.startOf target) target.steps.dropLast).2 = true) := by
  refine (makeRoom_cases target).imp_right fun made t => ?_
  rw [made t]
  exact makeDirectories_eq ..

theorem makeRoom_grown (t : FileTree) (target : Path) : Grown t (t.makeRoom target).1 (· ∈ t.way target) := by
  rcases makeRoom_eq target with refused | made
  · rw [refused t]
    exact .refl _ _
  · rw [(made t).1]
    exact (pave_grown ..).mono fun w mem => mem_way_of_dropLast mem

/-- A move that fails leaves the directories that it has made. -/
theorem moveFile_error {e : ApplyError} (h : t.moveFile p target = (t', .error e)) :
    t' = if t.has target then t else (t.makeRoom target).1 := by
  rw [moveFile] at h
  split at h
  · rename_i taken
    cases h
    rw [if_pos taken]
  · rename_i free
    rw [if_neg free]
    split at h
    · rename_i made
      cases h
      rw [made]
    · rename_i made
      split at h
      · cases h
      · cases h
        rw [made]

theorem moveFile_grown {e : ApplyError} (h : t.moveFile p target = (t', .error e)) :
    Grown t t' (· ∈ t.way target) := by
  rw [moveFile_error h]
  split
  · exact .refl _ _
  · exact makeRoom_grown t target

/-! ## Outcomes -/

theorem pairwise_eraseDups {xs : List Nat} (sorted : xs.Pairwise (· ≤ ·)) : xs.eraseDups.Pairwise (· < ·) := by
  induction len : xs.length using Nat.strongRecOn generalizing xs with
  | _ n ih =>
    cases xs with
    | nil => exact .nil
    | cons x xs =>
      obtain ⟨least, sorted⟩ := List.pairwise_cons.1 sorted
      rw [List.eraseDups_cons, List.pairwise_cons]
      refine ⟨fun y mem => ?_, ih _ ?_ (sorted.sublist List.filter_sublist) rfl⟩
      · rw [List.mem_eraseDups, List.mem_filter] at mem
        have := least y mem.1
        have : y ≠ x := by simpa using mem.2
        omega
      · have := List.length_filter_le (fun y => !y == x) xs
        rw [← len, List.length_cons]
        omega

theorem linesOf_ascending (edits : List Edit) : (linesOf edits).Pairwise (· < ·) := by
  apply pairwise_eraseDups
  have sorted : ((edits.map (·.line)).mergeSort (· ≤ ·)).Pairwise fun a b => decide (a ≤ b) = true := by
    apply List.pairwise_mergeSort
    · intro a b c
      simp only [decide_eq_true_eq]
      exact Nat.le_trans
    · intro a b
      simp only [Bool.or_eq_true, decide_eq_true_eq]
      exact Nat.le_total a b
  exact sorted.imp fun le => of_decide_eq_true le

theorem mem_linesOf {edits : List Edit} {line : Nat} : line ∈ linesOf edits ↔ ∃ e ∈ edits, e.line = line := by
  rw [linesOf, List.mem_eraseDups, List.mem_mergeSort, List.mem_map]

/-- What a failed file can leave behind: the content that the permitted edits make of the old one,
and directories on the way to the place that it was to be moved to. -/
structure Leaves (t t' : FileTree) (mode : EditMode) (c : FileChanges) : Prop where
  working : t'.workingDirectory = t.workingDirectory
  node : ∀ n, t'.node? n = t.node? n ∨
    (∃ content out, t.find c.path = .ok (n, .file content) ∧ Edit.applyAll (c.permitted mode) content = .ok out ∧
      t'.node? n = some (.file out)) ∨
    ∃ target, c.move? = some target ∧ n ∈ t.way target ∧ t.node? n = none ∧ t'.node? n = some .directory

/-- The move of a file fails after something was changed for it: its content, or directories on the
way. -/
def Strands (t : FileTree) (process : Nat) (mode : EditMode) (c : FileChanges) : Prop :=
  mode.permitsMove = true ∧ Edit.duplicate? [] c.edits = none ∧ ∃ target, c.move? = some target ∧
    ∃ t₁ changed, t.applyEdits process c (c.permitted mode) = (t₁, .ok changed) ∧
      (changed = true ∨ t.has target = false ∧ (t.makeRoom target).1 ≠ t)

/-- A file whose move fails has no duplicate edits, and its edits were carried out. -/
theorem applyFile_error_cases {e : ApplyError} (failed : t.applyFile process mode c = (t', .error e)) :
    (Edit.duplicate? [] c.edits ≠ none ∧ t' = t) ∨
      (∃ e, t.applyEdits process c (c.permitted mode) = (t', .error e)) ∨
      mode.permitsMove = true ∧ Edit.duplicate? [] c.edits = none ∧ ∃ target, c.move? = some target ∧
        ∃ t₁ changed, t.applyEdits process c (c.permitted mode) = (t₁, .ok changed) ∧
          t₁.moveFile c.path target = (t', .error e) := by
  rw [applyFile] at failed
  split at failed
  · rename_i fault duplicate
    cases failed
    exact .inl ⟨by simp [duplicate], rfl⟩
  · rename_i distinct
    split at failed
    · rename_i refused
      cases failed
      exact .inr (.inl ⟨_, refused⟩)
    · rename_i t₁ changed edited
      rw [applyMove] at failed
      split at failed
      · cases failed
      · rename_i target move
        split at failed
        · rename_i permits
          split at failed
          · cases failed
          · rename_i moved
            cases failed
            exact .inr (.inr ⟨permits, distinct, target, move, t₁, changed, edited, moved⟩)
        · cases failed

/-- Content that was changed is still seen after directories were made. -/
theorem ne_of_puts {t₁ : FileTree} {made : Names → Prop} {n : Names} {content out : Bytes}
    (found : t.node? n = some (.file content)) (differs : out ≠ content) (puts : Puts t t₁ n (.file out))
    (grown : Grown t₁ t' made) : t' ≠ t := by
  rintro rfl
  have here : t'.node? n = some (.file out) := grown.file_iff.2 (by rw [puts.node, if_pos rfl])
  rw [found] at here
  cases here
  exact differs rfl

/-- **A failed file.** It leaves a trace exactly where its move fails after something was changed for
it. The trace is confined to the content of the file, which stays in its place, and to new
directories on the way to the target. -/
theorem applyFile_failed {e : ApplyError} (unused : t.has (temporaryPath c.path process) = false)
    (failed : t.applyFile process mode c = (t', .error e)) :
    (t' ≠ t ↔ t.Strands process mode c) ∧ Leaves t t' mode c := by
  have intact : Leaves t t mode c := ⟨rfl, fun _ => .inl rfl⟩
  have edited := applyEdits_cases fun (_ : c.permitted mode ≠ []) => unused
  rcases applyFile_error_cases failed with ⟨duplicate, rfl⟩ | ⟨e', refused⟩ |
    ⟨permits, distinct, target, move, t₁, changed, done, moved⟩
  · exact ⟨⟨fun h => absurd rfl h, fun strands => absurd strands.2.1 duplicate⟩, intact⟩
  · -- Edits that are refused change nothing, and there is no move.
    have same : t' = t := by
      rcases edited with ⟨_, h⟩ | h | ⟨_, _, _, _, h, -⟩ <;> rw [refused] at h <;> cases h
      rfl
    subst same
    refine ⟨⟨fun h => absurd rfl h, ?_⟩, intact⟩
    rintro ⟨-, -, _, -, _, _, done, -⟩
    rw [refused] at done
    cases done
  · have grown := moveFile_grown moved
    have strands : t.Strands process mode c ↔ changed = true ∨ t.has target = false ∧ (t.makeRoom target).1 ≠ t := by
      refine ⟨?_, fun h => ⟨permits, distinct, target, move, t₁, changed, done, h⟩⟩
      rintro ⟨-, -, _, move', _, _, done', h⟩
      rw [move] at move'
      rw [done] at done'
      cases move'
      cases done'
      exact h
    rw [strands]
    rcases edited with ⟨_, h⟩ | h | ⟨_, n, content, out, h, found, made, differs, puts⟩ <;> rw [done] at h <;> cases h
    · refine ⟨?_, grown.working, fun n => (grown.node n).imp_right fun made => .inr ⟨target, move, made⟩⟩
      rw [moveFile_error moved]
      cases t.has target <;> simp
    · have here := node?_of_find found
      have ne := ne_of_puts here differs puts grown
      refine ⟨⟨fun _ => .inl rfl, fun _ => ne⟩, grown.working.trans puts.working, fun m => ?_⟩
      by_cases same : m = n
      · subst same
        exact .inr (.inl ⟨content, out, found, made, grown.file_iff.2 (by rw [puts.node, if_pos rfl])⟩)
      · have before := puts.node m
        rw [if_neg same] at before
        rcases grown.node m with after | ⟨onWay, none, directory⟩
        · exact .inl (after.trans before)
        · rw [way_eq puts.working] at onWay
          exact .inr (.inr ⟨target, move, onWay, before ▸ none, directory⟩)

/-- The content is edited before the move finds its place taken. -/
theorem applyFile_failed_taken :
    let t : FileTree := { nodes := [([encode "a.php"], .file (encode "foo\n")), ([encode "b.php"], .file (encode "keep\n"))] }
    let left : FileTree := { nodes := [([encode "b.php"], .file (encode "keep\n")), ([encode "a.php"], .file (encode "bar\n"))] }
    let c : FileChanges := { path := .ofText "/a.php", edits := [⟨1, 1, 3, "bar", .high⟩], moveTo := some (.ofText "/b.php") }
    t.applyFile 7 .conservative c = (left, .error (.targetExists (.ofText "/a.php") (.ofText "/b.php"))) ∧
      (left ≠ t ↔ t.Strands 7 .conservative c) ∧ Leaves t left .conservative c := by
  intro t left c
  have failed : t.applyFile 7 .conservative c = (left, .error (.targetExists (.ofText "/a.php") (.ofText "/b.php"))) := by
    decide +kernel
  exact ⟨failed, applyFile_failed (by decide +kernel) failed⟩

/-- A failed file may have its content changed, and may leave directories that were not there. -/
theorem applyFile_failed_changes :
    (let t : FileTree := { nodes := [([encode "a.php"], .file (encode "foo\n")), ([encode "b.php"], .file (encode "keep\n"))] }
      let c : FileChanges := { path := .ofText "/a.php", edits := [⟨1, 1, 3, "bar", .high⟩], moveTo := some (.ofText "/b.php") }
      t.has (temporaryPath c.path 7) = false ∧
        (t.applyFile 7 .conservative c).2 = .error (.targetExists (.ofText "/a.php") (.ofText "/b.php")) ∧
        (t.applyFile 7 .conservative c).1.read (.ofText "/a.php") ≠ t.read (.ofText "/a.php")) ∧
      let t : FileTree := {}
      let c : FileChanges := { path := .ofText "/gone.php", moveTo := some (.ofText "/new/b.php") }
      t.has (temporaryPath c.path 7) = false ∧
        (t.applyFile 7 .conservative c).2 = .error (.file (.ofText "/gone.php") .notFound) ∧
        (t.applyFile 7 .conservative c).1.isDirectory (.ofText "/new") = true ∧ t.has (.ofText "/new") = false := by
  decide +kernel

end PhpRename.FileTree
