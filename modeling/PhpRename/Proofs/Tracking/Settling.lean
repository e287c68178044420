import PhpRename.Proofs.Tracking.Lessons

/-!
# Sites settle

A site that has been bound stays bound, and its type changes only to one that is nearer to a plain
class name, whatever lessons follow: `learnAll_settles`. So a site that holds a class keeps it.
-/

set_option autoImplicit false

namespace PhpRename

/-! ## One lesson -/

namespace Bindings

variable {s t u : Bindings}

/-- Each site that is bound stays bound, to its type or to a nearer one. -/
def Settles (s t : Bindings) : Prop := ∀ file position type, s.typeAt? file position = some type →
  ∃ next, t.typeAt? file position = some next ∧ (next = type ∨ TypeExpr.Nearer next type)

theorem Settles.refl (s : Bindings) : s.Settles s := fun _ _ type bound => ⟨type, bound, .inl rfl⟩

theorem Settles.trans (h : s.Settles t) (h' : t.Settles u) : s.Settles u := by
  intro file position type bound
  obtain ⟨next, bound, nearer⟩ := h file position type bound
  obtain ⟨last, bound, nearer'⟩ := h' file position next bound
  refine ⟨last, bound, ?_⟩
  obtain rfl | nearer := nearer
  · exact nearer'
  · obtain rfl | nearer' := nearer'
    · exact .inr nearer
    · exact .inr (nearer'.trans nearer)

/-- A site that holds a mark keeps it. -/
theorem markGlobal_markGlobal (s : Bindings) (m : GlobalMark) : (s.markGlobal m).markGlobal m = s.markGlobal m := by
  rw [markGlobal.eq_def (s.markGlobal m)]
  refine if_pos ?_
  rw [markGlobal]
  split
  · assumption
  · rw [List.any_cons, beq_self_eq_true, beq_self_eq_true, Bool.and_self, Bool.true_or]

end Bindings

namespace Resolver

variable {r : Resolver}

/-- A site that does not keep its type gets a nearer one. -/
theorem Effect.settles {bindings : Bindings} (h : r.Effect bindings) : r.bindings.Settles bindings := by
  intro file position type bound
  cases h with
  | kept _ same =>
    refine ⟨type, ?_, .inl rfl⟩
    rw [Bindings.typeAt?, same]
    exact bound
  | recorded index new name scope other gives =>
    rw [Bindings.typeAt?_record]
    split
    · rename_i here
      obtain ⟨rfl, rfl⟩ := Prod.mk.inj (Binding.isAt_iff.1 here)
      have held : r.bindings.typeAt? r.file index = some type := bound
      rw [keeps, held] at gives
      exact ⟨new, rfl, .inr (TypeExpr.nearer_iff.2 gives)⟩
    · exact ⟨type, bound, .inl rfl⟩

/-- An offered type is taken where the site is free or holds one that is farther. -/
theorem typeAt?_bindName {index : Nat} {type name : String} {scope : Option Int}
    (other : (r.keyFor index name scope).1 ≠ type)
    (nearer : ∀ old, r.bindings.typeAt? r.file index = some old → TypeExpr.Nearer type old) :
    (r.bindName index type name scope).bindings.typeAt? r.file index = some type := by
  have gives : r.keeps index type = false := by
    rw [keeps]
    cases held : r.bindings.typeAt? r.file index with
    | none => rfl
    | some old => exact TypeExpr.nearer_iff.1 (nearer old held)
  have distinct : ((r.offered index type name scope).name == type) = false := beq_false_of_ne other
  have here : (r.offered index type name scope).isAt r.file index = true := Binding.isAt_iff.2 rfl
  rw [bindName_eq, distinct, gives, Bool.or_self, if_neg Bool.false_ne_true, Bindings.typeAt?_record, here, if_pos rfl]
  rfl

/-- An offer that is repeated changes nothing: its site holds the type by then, and its name and scope
depend on no binding. -/
theorem bindName_bindName (r : Resolver) (index : Nat) (type name : String) (scope : Option Int) :
    (r.bindName index type name scope).bindName index type name scope = r.bindName index type name scope := by
  rw [bindName_eq r]
  split
  · rename_i refused
    rw [bindName_eq, if_pos refused]
  · let after : Resolver := { r with bindings := r.bindings.record (r.offered index type name scope) }
    have here : (r.offered index type name scope).isAt r.file index = true := Binding.isAt_iff.2 rfl
    have held : after.bindings.typeAt? after.file index = some type := by
      exact (Bindings.typeAt?_record ..).trans (if_pos here)
    have keeps : after.keeps index type = true := by
      rw [Resolver.keeps, held]
      exact TypeExpr.atLeastAsSpecific_refl _
    rw [bindName_eq after, keeps, Bool.or_true, if_pos rfl]

theorem markGlobal_markGlobal (r : Resolver) (index : Nat) : (r.markGlobal index).markGlobal index = r.markGlobal index := by
  rw [markGlobal.eq_def (r.markGlobal index), (r.markGlobal_learns index).tokens, markGlobal]
  cases r.tokens[index]? with
  | none => rfl
  | some t =>
    cases owned : t.bindingOwner? with
    | none => simp only [owned]
    | some owner =>
      simp only [owned]
      exact congrArg (fun s => { r with bindings := s }) (Bindings.markGlobal_markGlobal ..)

/-- A lesson that is repeated teaches nothing. -/
theorem learn_learn (r : Resolver) (lesson : Lesson) : (r.learn lesson).learn lesson = r.learn lesson := by
  cases lesson with
  | bind index type name scope =>
    cases name with
    | some name => exact r.bindName_bindName index type name scope
    | none =>
      rw [learn, learn, bindToken.eq_def (r.bindToken ..), (r.bindToken_learns ..).tokens, bindToken]
      cases r.tokens[index]? with
      | none => rfl
      | some t => exact r.bindName_bindName index type t.text scope
  | markGlobal index => exact r.markGlobal_markGlobal index

end Resolver

/-! ## Runs of lessons -/

namespace Bindings

theorem settles_learn (s : Bindings) (c : Call) : s.Settles (s.learn c) :=
  (Resolver.learn_effect (c.workspace.resolver c.file s) c.lesson).settles

theorem settles_learnAll (s : Bindings) (calls : List Call) : s.Settles (s.learnAll calls) :=
  learnAll_induction (fun t c h => h.trans (t.settles_learn c)) (.refl s) calls

theorem learn_learn (s : Bindings) (c : Call) : (s.learn c).learn c = s.learn c := by
  obtain ⟨w, f, lesson⟩ := c
  rw [learn, Workspace.resolver_learn, Resolver.learn_learn]
  rfl

/-- **Sites settle.** In any run of lessons, for any files, a site that is bound stays bound, its type
changes only to one that is strictly nearer to a plain class name, and a plain class name stays for
good. A lesson that is repeated at once teaches nothing. An offered type that is not the name itself
is taken where the site is free or holds a farther one. Passes over files are such runs. -/
theorem learnAll_settles (before later : List Call) :
    let s := learnAll {} before
    (∀ file position type, s.typeAt? file position = some type →
      ∃ next, (s.learnAll later).typeAt? file position = some next ∧ (next ≠ type → TypeExpr.Nearer next type) ∧
        (TypeExpr.specificityOf type = some 0 → next = type)) ∧
      (∀ c, (s.learn c).learn c = s.learn c) ∧
      (∀ (w : Workspace) (f : SourceFile) (index : Nat) (type name : String) (scope : Option Int),
        ((w.resolver f s).keyFor index name scope).1 ≠ type →
        (∀ old, s.typeAt? f.path.text index = some old → TypeExpr.Nearer type old) →
        (s.learn ⟨w, f, .bind index type (some name) scope⟩).typeAt? f.path.text index = some type) ∧
      ∀ (w : Workspace) n, ∃ calls, w.trackPasses n s = s.learnAll calls := by
  intro s
  refine ⟨fun file position type bound => ?_, s.learn_learn, fun w f index type name scope other nearer => ?_,
    fun w n => w.exists_trackPasses s n⟩
  · obtain ⟨next, bound, nearer⟩ := s.settles_learnAll later file position type bound
    refine ⟨next, bound, fun other => nearer.resolve_left other, fun zero => ?_⟩
    exact nearer.resolve_right fun nearer => nearer.ne_zero zero
  · exact Resolver.typeAt?_bindName (r := w.resolver f s) other nearer

/-- A call that waits to be resolved gives way to a class, and the class to no other one. -/
theorem learnAll_settles_class :
    let file : SourceFile := ⟨.ofText "/p/a.php", Lexer.tokenize (Utf8.encode "<?php $a = $b->make();"), ""⟩
    let before : List Call := [⟨{}, file, .bind 2 "*$b->make" (some "$a") none⟩]
    let later : List Call := [⟨{}, file, .bind 2 "Foo" none none⟩, ⟨{}, file, .bind 2 "Bar" (some "$a") (some 0)⟩]
    let s := learnAll {} before
    s.typeAt? "/p/a.php" 2 = some "*$b->make" ∧ (s.learnAll later).typeAt? "/p/a.php" 2 = some "Foo" ∧
      TypeExpr.Nearer "Foo" "*$b->make" := by
  intro file before later s
  have bound : s.typeAt? "/p/a.php" 2 = some "*$b->make" := by decide +kernel
  have settled : (s.learnAll later).typeAt? "/p/a.php" 2 = some "Foo" := by decide +kernel
  obtain ⟨next, found, nearer, -⟩ := (learnAll_settles before later).1 _ _ _ bound
  obtain rfl : next = "Foo" := Option.some.inj (found.symm.trans settled)
  exact ⟨bound, settled, nearer (by decide)⟩

end Bindings

end PhpRename
