import PhpRename.Proofs.Tracking.Sites
import PhpRename.Proofs.TypeExpr.Text

/-!
# Chains of names

A name is a chain rooted at another one when the separator and at least one more character follow
it there. `rebase_of_roots` and `rebase_of_not_roots` say which bindings are rewritten, for all names.
`Becomes` says what a record makes of each binding, in terms of texts put together, and `becomes_iff`
that rewriting does just that to names free of NUL.
-/

set_option autoImplicit false

namespace PhpRename

theorem Text.after?_append (part rest : List Char) : after? part (part ++ rest) = some rest := by
  induction part with
  | nil => rfl
  | cons p part ih => rw [List.cons_append, after?, if_pos (beq_self_eq_true p), ih]

theorem Text.after?_eq_some_iff {part cs rest : List Char} : after? part cs = some rest ↔ cs = part ++ rest :=
  ⟨eq_append_of_after?, fun h => h ▸ after?_append part rest⟩

/-! ## Rewriting -/

namespace Binding

variable {b d c : Binding}

/-- The name and type of a binding are free of NUL. -/
def Clean (b : Binding) : Prop := '\x00' ∉ b.name.toList ∧ '\x00' ∉ b.type.toList

instance : DecidablePred Clean := fun _ => inferInstanceAs (Decidable (_ ∧ _))

/-- The binding is a chain rooted at the name of `b`, in its scope and file, with a suffix behind the
separator. -/
structure IsChain (b d : Binding) (suffix : String) : Prop where
  file : d.file = b.file
  scope : d.scope = b.scope
  filled : suffix ≠ ""
  name : d.name = b.name ++ "->" ++ suffix

/-- What a binding at another site is after `b` is recorded. -/
inductive Becomes (b d : Binding) : Binding → Prop where
  /-- A chain rooted at the bound name starts with the type instead, and moves to the global scope
  unless the type starts with a variable. -/
  | chain (suffix : String) (is : b.IsChain d suffix) :
      Becomes b d { d with
        name := b.type ++ "->" ++ suffix
        scope := if TypeExpr.VariableRooted b.type then b.scope else globalScope }
  /-- All others stay. -/
  | other (is : ∀ suffix, ¬ b.IsChain d suffix) : Becomes b d d

theorem scopeOfType_eq (type : String) (scope : Int) :
    scopeOfType type scope = if TypeExpr.VariableRooted type then scope else globalScope := by
  rw [scopeOfType]
  exact if_congr TypeExpr.variableRooted_iff.symm rfl rfl

/-- The tail of a name that is a chain up to a NUL: the separator and a suffix. -/
theorem chainTail?_eq_some_iff {root name : String} {tail : List Char} :
    chainTail? root name = some tail ↔ ∃ suffix, suffix ≠ "" ∧
      String.ofList (visible name) = root ++ "->" ++ suffix ∧ String.ofList tail = "->" ++ suffix := by
  rw [chainTail?]
  constructor
  · intro found
    split at found
    · rename_i c rest after
      refine ⟨String.ofList (c :: rest), by simp, ?_, ?_⟩
      · rw [← String.toList_inj, String.toList_ofList, Text.eq_append_of_after? after]
        simp only [String.toList_append, String.toList_ofList]
        rfl
      · rw [← Option.some.inj found, String.ofList_append, String.ofList_toList]
        rfl
    · cases found
  · rintro ⟨suffix, filled, whole, spelled⟩
    have whole : visible name = (root ++ "->" ++ suffix).toList := by rw [← whole, String.toList_ofList]
    have after : Text.after? (root ++ TypeExpr.separator).toList (root ++ "->" ++ suffix).toList = some suffix.toList :=
      Text.after?_eq_some_iff.2 String.toList_append
    rw [whole, after]
    cases chars : suffix.toList with
    | nil => exact absurd (String.toList_eq_nil_iff.1 chars) filled
    | cons c rest =>
      have same : tail = ("->" ++ suffix).toList := by rw [← spelled, String.toList_ofList]
      rw [same, String.toList_append, chars]
      rfl

/-- Nothing is a chain rooted at itself. -/
theorem chainTail?_self (name : String) : chainTail? name name = none := by
  rw [chainTail?]
  split
  · rename_i c rest after
    have begins := congrArg List.length (Text.eq_append_of_after? after)
    have short : (visible name).length ≤ name.toList.length := (List.takeWhile_sublist _).length_le
    rw [List.length_append, String.toList_append, List.length_append, List.length_cons] at begins
    omega
  · rfl

theorem rebase_self (b : Binding) : rebase b.name b.type b.file b.scope b = b := by
  rw [rebase, chainTail?_self]
  exact ite_self _

/-- The binding is a chain rooted at the name of `b`, in its scope and file, when its own name counts up to a NUL
only. -/
structure Roots (b d : Binding) (suffix : String) : Prop where
  file : d.file = b.file
  scope : d.scope = b.scope
  filled : suffix ≠ ""
  name : String.ofList (visible d.name) = b.name ++ "->" ++ suffix

/-- The chain with the type of `b` in the place of its root; it moves to the global scope unless the type starts with
a variable. -/
def graft (b d : Binding) (suffix : String) : Binding :=
  { d with name := b.type ++ "->" ++ suffix, scope := scopeOfType b.type b.scope }

/-- Chains rooted at the name are rewritten. -/
theorem rebase_of_roots {suffix : String} (roots : b.Roots d suffix) :
    rebase b.name b.type b.file b.scope d = b.graft d suffix := by
  have home : (d.scope == b.scope && d.file == b.file) = true := by
    rw [roots.scope, roots.file, beq_self_eq_true, beq_self_eq_true, Bool.and_self]
  have tail : chainTail? b.name d.name = some ("->" ++ suffix).toList :=
    chainTail?_eq_some_iff.2 ⟨suffix, roots.filled, roots.name, String.ofList_toList⟩
  rw [rebase, if_pos home, tail, graft]
  simp only [String.ofList_toList, String.append_assoc]

/-- All other bindings are kept. -/
theorem rebase_of_not_roots (others : ∀ suffix, ¬ b.Roots d suffix) : rebase b.name b.type b.file b.scope d = d := by
  rw [rebase]
  split
  · rename_i home
    simp only [Bool.and_eq_true, beq_iff_eq] at home
    split
    · rename_i tail found
      obtain ⟨suffix, filled, name, -⟩ := chainTail?_eq_some_iff.1 found
      exact absurd ⟨home.2, home.1, filled, name⟩ (others suffix)
    · rfl
  · rfl

/-- In a name free of NUL all counts. -/
theorem roots_iff_isChain {suffix : String} (clean : '\x00' ∉ d.name.toList) :
    b.Roots d suffix ↔ b.IsChain d suffix := by
  have seen : visible d.name = d.name.toList :=
    List.takeWhile_eq_self_iff.2 fun c mem => bne_iff_ne.2 fun same => clean (same ▸ mem)
  have whole : String.ofList (visible d.name) = d.name := by rw [seen, String.ofList_toList]
  constructor
  · rintro ⟨file, scope, filled, name⟩
    exact ⟨file, scope, filled, whole.symm.trans name⟩
  · rintro ⟨file, scope, filled, name⟩
    exact ⟨file, scope, filled, whole.trans name⟩

/-- Rewriting makes of a binding what the record asks for, and nothing else. -/
theorem becomes_iff (clean : '\x00' ∉ d.name.toList) :
    b.Becomes d c ↔ c = rebase b.name b.type b.file b.scope d := by
  have chained (suffix : String) (is : b.IsChain d suffix) : rebase b.name b.type b.file b.scope d =
      { d with name := b.type ++ "->" ++ suffix, scope := scopeOfType b.type b.scope } :=
    rebase_of_roots ((roots_iff_isChain clean).2 is)
  have kept (is : ∀ suffix, ¬ b.IsChain d suffix) : rebase b.name b.type b.file b.scope d = d :=
    rebase_of_not_roots fun suffix roots => is suffix ((roots_iff_isChain clean).1 roots)
  constructor
  · intro becomes
    cases becomes with
    | chain suffix is => rw [chained suffix is, scopeOfType_eq]
    | other is => exact (kept is).symm
  · rintro rfl
    by_cases is : ∃ suffix, b.IsChain d suffix
    · obtain ⟨suffix, is⟩ := is
      rw [chained suffix is, scopeOfType_eq]
      exact .chain suffix is
    · rw [kept (not_exists.1 is)]
      exact .other (not_exists.1 is)

end Binding

end PhpRename
