import PhpRename.Proofs.Files.Tree
import PhpRename.Proofs.Name.Label
import PhpRename.Proofs.Refactoring.Mention
import PhpRename.Run

/-!
# Renames can be carried out

The pending changes of a rename, file by file. In well-formed sources every edit aims at an
occurrence of the old name, so whatever an edit mode permits is carried out and puts the new name
in the place of the old one. In other sources an edit may miss its occurrence; it is said when.
-/

set_option autoImplicit false

namespace PhpRename

open Utf8 Lexer Name

variable {source : Bytes} {old new : String}

/-! ## Well-formed sources -/

namespace Occurrence

/-- The pieces of a well-formed source are characters. -/
theorem Shows.char_of_valid {o : Occurrence} (h : o.Shows source old) (valid : Valid source) :
    ∀ p ∈ o.before ++ o.found, p.char? ≠ none := by
  obtain ⟨span, after, token, pieces⟩ := h.pieces
  obtain ⟨l, hl, rfl⟩ := List.mem_map.1 (List.mem_of_getElem? token)
  obtain ⟨cs, chars⟩ := valid_of_mem_lexemes valid l hl
  rw [chars, cut_encodeChars] at pieces
  intro p hp
  have mem : p ∈ cs.map Piece.ofChar := by
    rw [pieces]
    exact List.mem_append_left _ hp
  obtain ⟨c, -, rfl⟩ := List.mem_map.1 mem
  exact nofun

/-- In a well-formed source every edit aims at its occurrence. -/
theorem Proposed.targets_of_valid {o : Occurrence} {e : Edit} (h : o.Proposed source old new e)
    (valid : Valid source) : e.Targets source (o.start source) (encode old) := by
  have chars := h.shows.char_of_valid valid
  refine h.targets_iff.2 ⟨drift_eq_zero_of_char fun p hp => ?_, fun p hp => ?_⟩
  · exact chars p (List.mem_append_left _ hp)
  · exact chars p (List.mem_append_right _ hp)

/-- In a well-formed source the bytes of an occurrence are the name. -/
theorem Shows.stop_of_valid {o : Occurrence} (h : o.Shows source old) (valid : Valid source) :
    o.stop source = o.start source + (encode old).length := by
  have chars := h.char_of_valid valid
  rw [stop, flatMap_bytes_of_char (fun p hp => h.isPiece p (List.mem_append_right _ hp))
    (fun p hp => chars p (List.mem_append_right _ hp)), h.shown]
  rfl

theorem Behind.apart {e e' : Edit} (h : Behind source old new e e') (valid : Valid source)
    (nonempty : encode old ≠ []) : e.Apart e' := by
  obtain ⟨o, o', proposed, proposed', le⟩ := h
  rw [proposed.shows.stop_of_valid valid] at le
  exact (proposed.targets_of_valid valid).apart (proposed'.targets_of_valid valid) nonempty nonempty le

end Occurrence

/-! ## Accepted names -/

namespace Refactoring

variable {refactoring prepared : Refactoring} {tree : FileTree}

theorem accept_eq_ok_iff {fault? : String → Option Reason} {name : String} {u : Unit} :
    (Name.accept fault? name).mapError RunError.ofName = .ok u ↔ fault? name = none := by
  rw [Name.accept]
  cases fault? name with
  | none => exact ⟨fun _ => rfl, fun _ => rfl⟩
  | some reason => constructor <;> intro h <;> cases h

theorem prepare_renameClass_iff :
    (renameClass old new).prepare tree = .ok prepared ↔
      labelFault? old = none ∧ classFault? new = none ∧ prepared = renameClass old new := by
  simp only [prepare, bind_eq_ok_iff, accept_eq_ok_iff, exists_const]
  exact ⟨fun ⟨ho, hn, h⟩ => ⟨ho, hn, (Except.ok.inj h).symm⟩, fun ⟨ho, hn, h⟩ => ⟨ho, hn, congrArg Except.ok h.symm⟩⟩

theorem prepare_renameMethod_iff {cls : String} :
    (renameMethod cls old new).prepare tree = .ok prepared ↔
      labelFault? (short cls) = none ∧ labelFault? old = none ∧ methodFault? new = none ∧
        prepared = renameMethod cls old new := by
  simp only [prepare, bind_eq_ok_iff, accept_eq_ok_iff, exists_const]
  exact ⟨fun ⟨hc, ho, hn, h⟩ => ⟨hc, ho, hn, (Except.ok.inj h).symm⟩,
    fun ⟨hc, ho, hn, h⟩ => ⟨hc, ho, hn, congrArg Except.ok h.symm⟩⟩

/-- Names that are accepted are labels, and are kept. -/
theorem prepare_ok (names : refactoring.names? = some (old, new)) (h : refactoring.prepare tree = .ok prepared) :
    prepared = refactoring ∧ IsLabel old ∧ IsLabel new := by
  cases refactoring with
  | renameClass a b =>
    cases names
    obtain ⟨old_ok, new_ok, rfl⟩ := prepare_renameClass_iff.1 h
    exact ⟨rfl, labelFault?_eq_none_iff.1 old_ok, isLabel_of_classFault? new_ok⟩
  | renameMethod cls a b =>
    cases names
    obtain ⟨-, old_ok, new_ok, rfl⟩ := prepare_renameMethod_iff.1 h
    exact ⟨rfl, labelFault?_eq_none_iff.1 old_ok, isLabel_of_methodFault? new_ok⟩
  | renameFile a b => cases names

/-! ## Entries of a scan -/

variable {sources : List (Path × Bytes)}

/-- Every entry is that of one of the sources, and holds the proposals for it. -/
theorem exists_source (distinct : sources.Pairwise fun a b => a.1.same b.1 = false)
    (names : refactoring.names? = some (old, new)) :
    ∀ c ∈ (refactoring.scan (.ofSources sources)).files, ∃ source, (c.path, source) ∈ sources ∧
      ∃ r n, r.tokens = tokenize source ∧ c.edits = refactoring.proposals r n := by
  intro c hc
  have start : refactoring.initialChanges = {} := by
    cases refactoring with
    | renameClass => rfl
    | renameMethod => rfl
    | renameFile => cases names
  have apart : (Workspace.ofSources sources).files.Pairwise fun f g => f.path.same g.path = false := by
    rw [Workspace.files_ofSources]
    exact List.pairwise_map.2 distinct
  obtain ⟨f, hf, entry⟩ := entry_scan apart start c hc
  rw [Workspace.files_ofSources] at hf
  obtain ⟨⟨path, source⟩, hs, rfl⟩ := List.mem_map.1 hf
  obtain ⟨bindings, edits⟩ := entry.edits
  refine ⟨source, ?_, _, _, rfl, edits⟩
  rw [entry.path]
  exact hs

/-- Edits put a new name in the place of an old one, wherever they are. -/
structure Renames (old new : String) (edits : List Edit) (content out : Bytes) : Prop where
  substituted : Edit.Substituted edits content out
  old : ∀ e ∈ edits, e.addressed content = encode old
  new : ∀ e ∈ edits, e.replacement = new

/-- Edits of a well-formed source that stand for occurrences are carried out. -/
theorem applyAll_of_proposed {edits : List Edit} (valid : Valid source) (isOld : IsLabel old) (isNew : IsLabel new)
    (proposed : ∀ e ∈ edits, ∃ o : Occurrence, o.Proposed source old new e)
    (ordered : edits.Pairwise (Occurrence.Behind source old new)) :
    ∃ out, Edit.applyAll edits source = .ok out ∧ Renames old new edits source out := by
  have inside : ∀ e ∈ edits, e.LiesIn source := by
    intro e he
    obtain ⟨o, h⟩ := proposed e he
    exact (h.targets_of_valid valid).liesIn isOld.lineFeed_notMem isOld.firm
  have apart : edits.Pairwise Edit.Apart := ordered.imp fun h => h.apart valid isOld.encode_ne_nil
  have firms : ∀ e ∈ edits, Edit.Firm e.bytes := by
    intro e he
    obtain ⟨o, h⟩ := proposed e he
    rw [Edit.bytes, h.replacement]
    exact isNew.firm
  refine ⟨_, Edit.applyAll_eq_substitute inside apart firms, ⟨inside, apart, rfl⟩, ?_, ?_⟩
  · intro e he
    obtain ⟨o, h⟩ := proposed e he
    exact (h.targets_of_valid valid).addressed isOld.lineFeed_notMem isOld.encode_ne_nil
  · intro e he
    obtain ⟨o, h⟩ := proposed e he
    exact h.replacement

/-- **Renames can be carried out.** In well-formed sources under different paths, the edits that a
mode permits are carried out for every file, and put the new name in the place of the old one. -/
theorem scan_renames (distinct : sources.Pairwise fun a b => a.1.same b.1 = false)
    (valid : ∀ s ∈ sources, Valid s.2) (names : refactoring.names? = some (old, new))
    (accepted : refactoring.prepare tree = .ok prepared) (mode : EditMode) :
    ∀ c ∈ (prepared.scan (.ofSources sources)).files, ∃ source, (c.path, source) ∈ sources ∧
      ∃ out, Edit.applyAll (c.edits.filter (mode.permits ·.confidence)) source = .ok out ∧
        Renames old new (c.edits.filter (mode.permits ·.confidence)) source out := by
  obtain ⟨rfl, isOld, isNew⟩ := prepare_ok names accepted
  intro c hc
  obtain ⟨source, hs, r, n, file, edits⟩ := exists_source distinct names c hc
  obtain ⟨proposed, ordered⟩ := proposals_proposed names isOld.nonempty file n
  rw [← edits] at proposed ordered
  refine ⟨source, hs, applyAll_of_proposed (valid _ hs) isOld isNew ?_ (ordered.filter _)⟩
  intro e he
  exact proposed e (List.mem_filter.1 he).1

/-- Two files: mentions behind line feeds and characters of several bytes, and a qualified name. -/
theorem scan_renames_qualified :
    let sources : List (Path × Bytes) :=
      [(.ofText "a.php", encode "<?php\n/* é\n ü Foo, Foo */"), (.ofText "b.php", encode "<?php new \\A\\Foo;\r\n")]
    let changes := (renameClass "Foo" "Foobar").scan (.ofSources sources)
    changes.files.map (·.edits) =
        [[⟨3, 5, 3, "Foobar", .low⟩, ⟨3, 10, 3, "Foobar", .low⟩], [⟨1, 14, 3, "Foobar", .high⟩]] ∧
      ∀ c ∈ changes.files, ∃ source, (c.path, source) ∈ sources ∧
        ∃ out, Edit.applyAll (c.edits.filter (EditMode.aggressive.permits ·.confidence)) source = .ok out ∧
          Renames "Foo" "Foobar" (c.edits.filter (EditMode.aggressive.permits ·.confidence)) source out := by
  have accepted : (renameClass "Foo" "Foobar").prepare {} = .ok (renameClass "Foo" "Foobar") :=
    prepare_renameClass_iff.2 ⟨by decide +kernel, by decide +kernel, rfl⟩
  refine ⟨by decide +kernel, scan_renames (by decide +kernel) ?_ rfl accepted .aggressive⟩
  intro s hs
  rcases List.mem_cons.1 hs with rfl | hs
  · exact valid_encode _
  · rw [List.mem_singleton.1 hs]
    exact valid_encode _

/-- **Where the edits of a rename aim.** Every edit stands for an occurrence of the old name, in the
right line and as far to the right of it as ill-formed stretches have drifted. It replaces bytes of
the old name just where these stand that much to the right; it aims at its own occurrence just
where that is intact, and then the replaced bytes are the old name. -/
theorem scan_targets (distinct : sources.Pairwise fun a b => a.1.same b.1 = false)
    (names : refactoring.names? = some (old, new)) (accepted : refactoring.prepare tree = .ok prepared) :
    ∀ c ∈ (prepared.scan (.ofSources sources)).files, ∃ source, (c.path, source) ∈ sources ∧
      ∀ e ∈ c.edits, ∃ o : Occurrence, o.Proposed source old new e ∧
        (e.addressed source = encode old ↔
          e.Targets source (o.start source + drift o.before) (encode old)) ∧
        (e.Targets source (o.start source) (encode old) ↔ o.Intact) ∧
        (o.Intact → e.addressed source = encode old) := by
  obtain ⟨rfl, isOld, -⟩ := prepare_ok names accepted
  intro c hc
  obtain ⟨source, hs, r, n, file, edits⟩ := exists_source distinct names c hc
  refine ⟨source, hs, fun e he => ?_⟩
  rw [edits] at he
  obtain ⟨o, h⟩ := (proposals_proposed names isOld.nonempty file n).1 e he
  refine ⟨o, h, h.addressed_iff isOld.lineFeed_notMem isOld.encode_ne_nil, h.targets_iff, fun intact => ?_⟩
  exact (h.targets_iff.2 intact).addressed isOld.lineFeed_notMem isOld.encode_ne_nil

/-- An ill-formed byte before a mention, and a reference on the next line. -/
theorem scan_targets_drifted :
    let sources : List (Path × Bytes) := [(.ofText "a.php", encode "<?php // " ++ 0xff :: encode " Foo bar\nnew Foo;")]
    let changes := (renameClass "Foo" "Bar").scan (.ofSources sources)
    changes.files.map (·.edits) = [[⟨1, 14, 3, "Bar", .low⟩, ⟨2, 5, 3, "Bar", .high⟩]] ∧
      ∀ c ∈ changes.files, ∃ source, (c.path, source) ∈ sources ∧
        ∀ e ∈ c.edits, ∃ o : Occurrence, o.Proposed source "Foo" "Bar" e ∧
          (e.addressed source = encode "Foo" ↔
            e.Targets source (o.start source + drift o.before) (encode "Foo")) ∧
          (e.Targets source (o.start source) (encode "Foo") ↔ o.Intact) ∧
          (o.Intact → e.addressed source = encode "Foo") := by
  have accepted : (renameClass "Foo" "Bar").prepare {} = .ok (renameClass "Foo" "Bar") :=
    prepare_renameClass_iff.2 ⟨by decide +kernel, by decide +kernel, rfl⟩
  exact ⟨by decide +kernel, scan_targets (List.pairwise_singleton ..) rfl accepted⟩

/-- An edit behind an ill-formed byte replaces other bytes than the old name. -/
theorem scan_misses_occurrence :
    let source := encode "<?php // " ++ 0xff :: encode " Foo bar\n"
    (renameClass "Foo" "Bar").prepare {} = .ok (renameClass "Foo" "Bar") ∧
      ∃ c ∈ ((renameClass "Foo" "Bar").scan (.ofSources [(.ofText "a.php", source)])).files,
        ∃ e ∈ c.edits, e.addressed source = encode "o b" ∧ e.addressed source ≠ encode "Foo" := by
  refine ⟨prepare_renameClass_iff.2 ⟨?_, ?_, rfl⟩, ?_⟩
  · decide +kernel
  · decide +kernel
  · decide +kernel

end Refactoring

end PhpRename
