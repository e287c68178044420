import PhpRename.Proofs.Edit.Substitution

/-!
# The order in which edits are proposed

Where edits start is checked in the order in which they were proposed, and the first edit at fault is
reported. Edits that pass are carried out by line and column: sorting leaves nothing of the order in
which they came, whether they are carried out or refused. `applyAll_perm` puts both together.
-/

set_option autoImplicit false

namespace PhpRename.Edit

variable {as bs edits : List Edit} {content : Bytes}

/-- Each edit has a line and a column, and no two start at the same place. -/
structure WellPlaced (edits : List Edit) : Prop where
  distinct : (edits.map key).Nodup
  nonzero : ∀ e ∈ edits, e.line ≠ 0 ∧ e.column ≠ 0

theorem misplaced?_nil_iff : misplaced? [] edits = none ↔ WellPlaced edits := by
  rw [misplaced?_eq_none_iff]
  constructor
  · rintro ⟨each, distinct⟩
    refine ⟨distinct, fun e mem => ?_⟩
    obtain ⟨-, line, column⟩ := each e mem
    omega
  · rintro ⟨distinct, nonzero⟩
    refine ⟨fun e mem => ?_, distinct⟩
    obtain ⟨line, column⟩ := nonzero e mem
    exact ⟨List.not_mem_nil, Nat.pos_of_ne_zero line, Nat.pos_of_ne_zero column⟩

theorem WellPlaced.perm (h : WellPlaced as) (same : as.Perm bs) : WellPlaced bs where
  distinct := (same.map key).nodup_iff.1 h.distinct
  nonzero e mem := h.nonzero e (same.mem_iff.2 mem)

/-- Of two edits that come before each other, both start at the same place. -/
theorem key_eq_of_precedes {a b : Edit} (le : a.precedes b = true) (ge : b.precedes a = true) : a.key = b.key := by
  simp only [precedes, Bool.or_eq_true, Bool.and_eq_true, decide_eq_true_eq, beq_iff_eq] at le ge
  have line : a.line = b.line := by omega
  have column : a.column = b.column := by omega
  rw [key, key, line, column]

/-- Edits that start at different places are sorted in one way only. -/
theorem mergeSort_precedes_perm (same : as.Perm bs) (distinct : (as.map key).Nodup) :
    as.mergeSort precedes = bs.mergeSort precedes := by
  have sorted : (as.mergeSort precedes).Perm (bs.mergeSort precedes) :=
    (List.mergeSort_perm as precedes).trans (same.trans (List.mergeSort_perm bs precedes).symm)
  refine List.Perm.eq_of_pairwise ?_ (pairwise_mergeSort_precedes as) (pairwise_mergeSort_precedes bs) sorted
  intro a b ha hb le ge
  have ha : a ∈ as := List.mem_mergeSort.1 ha
  have hb : b ∈ as := same.mem_iff.2 (List.mem_mergeSort.1 hb)
  exact List.inj_on_of_nodup_map distinct ha hb (key_eq_of_precedes le ge)

/-- Well placed edits have one result in whichever order they are proposed, also when they are
refused. -/
theorem WellPlaced.applyAll_eq (h : WellPlaced as) (same : as.Perm bs) : applyAll as content = applyAll bs content := by
  rw [applyAll, applyAll, misplaced?_nil_iff.2 h, misplaced?_nil_iff.2 (h.perm same),
    mergeSort_precedes_perm same h.distinct]

/-- Other edits are refused. -/
theorem applyAll_ne_ok (h : ¬ WellPlaced edits) (out : Bytes) : applyAll edits content ≠ .ok out :=
  fun ok => h (misplaced?_nil_iff.1 (applyAll_ok_iff.1 ok).1)

/-- **The order of proposal does not matter.** The same edits in another order are carried out or refused
together, with the same bytes; and where they have lines and columns and start at different places, a
refusal is the same fault at the same place. -/
theorem applyAll_perm (same : as.Perm bs) (content : Bytes) :
    (∀ out, applyAll as content = .ok out ↔ applyAll bs content = .ok out) ∧
      ((as.map key).Nodup → (∀ e ∈ as, e.line ≠ 0 ∧ e.column ≠ 0) → applyAll as content = applyAll bs content) := by
  refine ⟨fun out => ?_, fun distinct nonzero => WellPlaced.applyAll_eq ⟨distinct, nonzero⟩ same⟩
  by_cases placed : WellPlaced as
  · rw [placed.applyAll_eq same]
  · have others : ¬ WellPlaced bs := fun h => placed (h.perm same.symm)
    exact iff_of_false (applyAll_ne_ok placed out) (applyAll_ne_ok others out)

/-- A conflict on the second line is reported before an edit past the end of the third, though that one
was proposed first. -/
theorem applyAll_perm_refused :
    let content := Utf8.encode "<?php\nabcdef\nx\n"
    let as : List Edit := [⟨3, 9, 1, "T", .low⟩, ⟨2, 4, 1, "R", .high⟩, ⟨2, 2, 4, "Q", .high⟩]
    let bs : List Edit := [⟨2, 2, 4, "Q", .high⟩, ⟨2, 4, 1, "R", .high⟩, ⟨3, 9, 1, "T", .low⟩]
    as.Perm bs ∧ (as.map key).Nodup ∧ (∀ e ∈ as, e.line ≠ 0 ∧ e.column ≠ 0) ∧
      applyAll bs content = .error ⟨.conflict, ⟨2, 4⟩⟩ ∧ applyAll as content = .error ⟨.conflict, ⟨2, 4⟩⟩ := by
  intro content as bs
  have same : as.Perm bs := by decide
  have distinct : (as.map key).Nodup := by decide
  have nonzero : ∀ e ∈ as, e.line ≠ 0 ∧ e.column ≠ 0 := by decide
  have refused : applyAll [⟨2, 2, 4, "Q", .high⟩, ⟨2, 4, 1, "R", .high⟩, ⟨3, 9, 1, "T", .low⟩]
      (Utf8.encode "<?php\nabcdef\nx\n") = .error ⟨.conflict, ⟨2, 4⟩⟩ := by cbv
  exact ⟨same, distinct, nonzero, refused, ((applyAll_perm same content).2 distinct nonzero).trans refused⟩

end PhpRename.Edit
