import PhpRename.Proofs.Refactoring.Reference
import PhpRename.Proofs.Token.Cursor

/-!
# Renaming a class keeps the structure

Once the sure edits of a class rename are carried out, the new source has the tokens of the old one: the kinds,
the scopes and the links are the same, and so are the texts but for the last segments of the references. A second
scan finds no reference to the old name any more. A number that the new name would go on with is the one thing in
the way.
-/

set_option autoImplicit false

namespace PhpRename

open Utf8 Lexer

/-- The edits for a path that the conservative mode carries out. -/
def Changes.sure (s : Changes) (path : Path) : List Edit := ((s.get? path).map (·.permitted .conservative)).getD []

/-- A source in which edits have given identifiers a new last segment: its tokens are the old ones but for these
segments and the positions, and every edit is that of an identifier with the old last segment. -/
structure KeepsStructure (old new : String) (edits : List Edit) (source out : Bytes) : Prop where
  size : (tokenize out).size = (tokenize source).size
  tokens : ∀ (i : Nat) (t : Token), (tokenize source)[i]? = some t →
    ∃ p, (tokenize out)[i]? = some { t with text := t.renamedText edits new, position := p }
  short : ∀ t ∈ tokenize source, t.editedBy edits = true → Name.short t.text = old
  edited : ∀ e ∈ edits, ∃ t ∈ tokenize source, t.kind = .identifier ∧ e.ends t = true

namespace ClassRename

variable {old new : String} {edits : List Edit} {source out : Bytes}

/-- Which tokens refer to a class is told by the kinds. -/
theorem refersToClass_congr {ts ts' : Tokens} (kinds : ∀ i, ts.kindAt? i = ts'.kindAt? i) (i : Nat) :
    refersToClass ts i = refersToClass ts' i := by
  have satisfies : ∀ test, ts.kindSatisfies test = ts'.kindSatisfies test :=
    fun test => funext fun j => Tokens.kindSatisfies_congr kinds test j
  have at_ : ∀ kind, ts.isAt kind = ts'.isAt kind := fun kind => funext fun j => by rw [Tokens.isAt, Tokens.isAt, kinds]
  rw [refersToClass, refersToClass, Tokens.prevSignificant?_congr kinds, Tokens.nextSignificant?_congr kinds,
    satisfies, at_, at_]

/-- Edits of references keep the structure. -/
theorem keepsStructure_of_references (valid : Valid source) (isOld : Name.IsLabel old) (isNew : Name.IsLabel new)
    (free : Name.classFault? new = none) (tags : ∀ t ∈ tokenize source, t.kind = .openTag → IsLongTag t.text)
    (references : AreReferences old new (tokenize source) edits)
    (numbers : KeepsNumbers old new edits (tokenize source)) (done : Edit.Substituted edits source out) :
    KeepsStructure old new edits source out := by
  have renamed := renamed_retold valid isOld references numbers
  have written := substitute_references valid references isOld done.inside done.apart
  rw [← done.result] at written
  constructor
  case size =>
    rw [written]
    exact size_tokenize_of_renamed valid isOld isNew free tags renamed
  case tokens =>
    intro i t token
    rw [written]
    apply tokenize_of_renamed valid isOld isNew free tags renamed token
    rw [List.getElem?_map, Array.getElem?_toList, token]
    rfl
  case short =>
    intro t mem edited
    obtain ⟨i, token⟩ := Array.mem_iff_getElem?.1 mem
    exact ((editedBy_iff valid references isOld token).1 edited).short
  case edited =>
    intro e mem
    obtain ⟨i, t, h, rfl⟩ := (references e).1 mem
    exact ⟨t, Array.mem_of_getElem? h.token, h.kind, h.ends⟩

/-- Where the structure is kept, no reference to the old name is left. -/
theorem not_refers_of_keepsStructure (valid : Valid source) (isOld : Name.IsLabel old) (isNew : Name.IsLabel new)
    (differ : old ≠ new) (references : AreReferences old new (tokenize source) edits)
    (kept : KeepsStructure old new edits source out) {i : Nat} {u : Token} : ¬ Refers old (tokenize out) i u := by
  intro h
  have kinds : ∀ j, (tokenize out).kindAt? j = (tokenize source).kindAt? j := by
    intro j
    rw [Tokens.kindAt?, Tokens.kindAt?]
    cases token : (tokenize source)[j]? with
    | none =>
      have past : (tokenize out)[j]? = none := by
        rw [Array.getElem?_eq_none_iff, kept.size]
        exact Array.getElem?_eq_none_iff.1 token
      rw [past]
    | some t =>
      obtain ⟨p, same⟩ := kept.tokens j t token
      rw [same]
      rfl
  have bound : i < (tokenize source).size := by
    rw [← kept.size]
    exact (Array.getElem?_eq_some_iff.1 h.token).1
  have token : (tokenize source)[i]? = some (tokenize source)[i] := Array.getElem?_eq_getElem bound
  generalize (tokenize source)[i] = t at token
  obtain ⟨p, same⟩ := kept.tokens i t token
  obtain rfl := Option.some.inj (h.token.symm.trans same)
  have short := h.short
  by_cases edited : t.editedBy edits = true
  · rw [Token.renamedText, if_pos edited, isNew.short_append (Name.isQualifier_qualifier t.text)] at short
    exact differ short.symm
  · rw [Token.renamedText, if_neg edited] at short
    apply edited
    apply (editedBy_iff valid references isOld token).2
    refine ⟨token, h.kind, short, ?_⟩
    rw [← refersToClass_congr kinds]
    exact h.refers

end ClassRename

namespace Refactoring

variable {old new : String} {sources : List (Path × Bytes)} {prepared : Refactoring} {tree : FileTree}

/-- The sure edits of a class rename for a source are those of its references, and lie apart in it. -/
theorem sure_scan (old new : String) (distinct : sources.Pairwise fun a b => a.1.same b.1 = false) {path : Path}
    {source : Bytes} (mem : (path, source) ∈ sources) :
    ∃ r : Resolver, r.tokens = tokenize source ∧ ((renameClass old new).scan (.ofSources sources)).sure path =
      ((renameClass old new).proposals r r.tokens.size).filter (EditMode.conservative.permits ·.confidence) :=
  permitted_scan distinct rfl mem .conservative

/-- **Renaming a class keeps the structure.** The sure edits for a well-formed source without short open tags are
carried out, unless a number would go on with the new name; the new source has the same tokens but for the last
segments of the edited identifiers; and scanned for the same rename it has no sure edits. -/
theorem scan_keepsStructure (distinct : sources.Pairwise fun a b => a.1.same b.1 = false)
    (accepted : (renameClass old new).prepare tree = .ok prepared) {path : Path} {source : Bytes}
    (mem : (path, source) ∈ sources) (valid : Valid source)
    (tags : ∀ t ∈ tokenize source, t.kind = .openTag → IsLongTag t.text)
    (numbers : ClassRename.KeepsNumbers old new ((prepared.scan (.ofSources sources)).sure path) (tokenize source)) :
    ∃ out, Edit.applyAll ((prepared.scan (.ofSources sources)).sure path) source = .ok out ∧
      KeepsStructure old new ((prepared.scan (.ofSources sources)).sure path) source out ∧
      (old ≠ new → ∀ (again : List (Path × Bytes)) (path' : Path),
        (again.Pairwise fun a b => a.1.same b.1 = false) → (path', out) ∈ again →
          (prepared.scan (.ofSources again)).sure path' = []) := by
  obtain ⟨label, free, rfl⟩ := prepare_renameClass_iff.1 accepted
  have isOld := Name.labelFault?_eq_none_iff.1 label
  have isNew := Name.isLabel_of_classFault? free
  obtain ⟨r, file, edits⟩ := sure_scan old new distinct mem
  have references : ClassRename.AreReferences old new (tokenize source)
      (((renameClass old new).scan (.ofSources sources)).sure path) := by
    rw [edits, ← file]
    exact ClassRename.areReferences_proposals
  have names : (renameClass old new).names? = some (old, new) := rfl
  obtain ⟨proposed, ordered⟩ := proposals_proposed names isOld.nonempty file r.tokens.size
  obtain ⟨out, applied, renames⟩ := applyAll_of_proposed valid isOld isNew
    (fun e he => proposed e (List.mem_filter.1 he).1) (ordered.filter (EditMode.conservative.permits ·.confidence))
  rw [← edits] at applied renames
  have kept := ClassRename.keepsStructure_of_references valid isOld isNew free tags references numbers renames.substituted
  refine ⟨out, applied, kept, ?_⟩
  intro differ again path' distinct' mem'
  obtain ⟨r', file', edits'⟩ := sure_scan old new distinct' mem'
  rw [edits']
  apply List.eq_nil_iff_forall_not_mem.2
  intro e he
  obtain ⟨i, u, h, -⟩ := (ClassRename.areReferences_proposals e).1 he
  rw [file'] at h
  exact ClassRename.not_refers_of_keepsStructure valid isOld isNew differ references kept h

/-- A name outside ASCII behind a number, and a qualified one. -/
theorem scan_keepsStructure_beyondAscii :
    let source := encode "<?php 1é; new \\A\\é;\n"
    let changes := (renameClass "é" "ö").scan (.ofSources [(.ofText "a.php", source)])
    changes.sure (.ofText "a.php") = [⟨1, 8, 2, "ö", .high⟩, ⟨1, 19, 2, "ö", .high⟩] ∧
      ∃ out, Edit.applyAll (changes.sure (.ofText "a.php")) source = .ok out ∧
        KeepsStructure "é" "ö" (changes.sure (.ofText "a.php")) source out ∧
        ("é" ≠ "ö" → ∀ (again : List (Path × Bytes)) (path' : Path),
          (again.Pairwise fun a b => a.1.same b.1 = false) → (path', out) ∈ again →
            ((renameClass "é" "ö").scan (.ofSources again)).sure path' = []) := by
  intro source changes
  have accepted : (renameClass "é" "ö").prepare {} = .ok (renameClass "é" "ö") :=
    prepare_renameClass_iff.2 ⟨by decide +kernel, by decide +kernel, rfl⟩
  have beyond : Name.StartsBeyondAscii "ö" := ⟨'ö', [], by decide, by decide⟩
  refine ⟨by decide +kernel, ?_⟩
  exact scan_keepsStructure (List.pairwise_singleton ..) accepted (List.mem_singleton.2 rfl) (valid_encode _)
    (by decide +kernel) (.inl beyond)

/-- A number goes on with the letters of a name that is put in behind it. -/
theorem number_swallows_name :
    let source := encode "<?php 1é;\n"
    (renameClass "é" "Bar").prepare {} = .ok (renameClass "é" "Bar") ∧ Valid source ∧
      (∀ t ∈ tokenize source, t.kind = .openTag → IsLongTag t.text) ∧
      Edit.applyAll (((renameClass "é" "Bar").scan (.ofSources [(.ofText "a.php", source)])).sure (.ofText "a.php")) source =
        .ok (encode "<?php 1Bar;\n") ∧
      (tokenize (encode "<?php 1Bar;\n")).size ≠ (tokenize source).size := by
  intro source
  refine ⟨prepare_renameClass_iff.2 ⟨?_, ?_, rfl⟩, valid_encode _, ?_⟩
  · decide +kernel
  · decide +kernel
  · decide +kernel

end Refactoring

end PhpRename
