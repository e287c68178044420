import PhpRename.Proofs.Tracking.Lessons

/-!
# Where names live

Only names of variables, and of calls and members of variables, are bound in the scopes of functions
and classes. All other names live in the global scope, where they are looked for: `learnAll_homes`.
-/

set_option autoImplicit false

namespace PhpRename

open TypeExpr

/-- A binding outside of the global scope is of a variable, or of what hangs on one. -/
def Binding.Homed (b : Binding) : Prop := b.scope ≠ globalScope → VariableRooted b.name

/-- The name of a chain that stays in a scope starts with a variable. -/
theorem Binding.Homed.rebase {d : Binding} (h : d.Homed) (root type file : String) (scope : Int) :
    (Binding.rebase root type file scope d).Homed := by
  rw [Binding.rebase]
  split
  · split
    · intro outside
      rw [scopeOfType_eq] at outside
      exact (of_not_not fun other => outside (if_neg other)).append _
    · exact h
  · exact h

namespace Resolver

variable {r : Resolver}

theorem keyFor_homed (r : Resolver) (index : Nat) (name : String) (scope : Option Int) :
    (r.keyFor index name scope).2 ≠ globalScope → VariableRooted (r.keyFor index name scope).1 := by
  rw [keyFor]
  split
  · exact fun outside => (outside rfl).elim
  · simp only
    split
    · rename_i starts
      dsimp only
      exact fun _ => variableRooted_iff.2 starts
    · exact fun outside => (outside rfl).elim

/-- A lesson keeps bindings where they belong. -/
theorem Effect.homed {bindings : Bindings} (h : r.Effect bindings) (homed : ∀ b ∈ r.bindings.entries, b.Homed) :
    ∀ b ∈ bindings.entries, b.Homed := by
  intro b mem
  cases h with
  | kept _ same => exact homed b (same ▸ mem)
  | recorded index type name scope other gives =>
    obtain rfl | ⟨d, hd, -, rfl⟩ := Bindings.mem_record.1 mem
    · exact r.keyFor_homed index name scope
    · exact (homed d hd).rebase _ _ _ _

/-- A name that does not start with a variable is looked up in the global scope, and found there. -/
theorem exists_lookup? {b : Binding} (mem : b ∈ r.bindings.entries) (file : b.file = r.file)
    (scope : b.scope = globalScope) (other : ¬ VariableRooted b.name) (index : Nat) :
    ∃ type, r.bindings.lookup? b.name r.file globalScope index = some type ∧ r.lookup? index b.name = some type := by
  have global : r.scopeOf index b.name = globalScope := by
    rw [scopeOf, if_neg (mt variableRooted_iff.2 other)]
  cases found : r.bindings.lookup? b.name r.file globalScope index with
  | none =>
    have none : b ∉ r.bindings.ofName b.name r.file globalScope := by
      rw [Bindings.lookup?_eq_none_iff.1 found]
      exact List.not_mem_nil
    exact absurd (Bindings.mem_ofName.2 ⟨mem, rfl, file, scope⟩) none
  | some type =>
    refine ⟨type, rfl, ?_⟩
    rw [lookup?]
    simp only [global, found, Option.some_or]

end Resolver

/-! ## Runs of lessons -/

namespace Bindings

theorem homed_learnAll (calls : List Call) : ∀ b ∈ (learnAll {} calls).entries, b.Homed :=
  learnAll_induction (P := fun s => ∀ b ∈ s.entries, b.Homed)
    (fun s c homed => (Resolver.learn_effect (c.workspace.resolver c.file s) c.lesson).homed homed)
    (fun _ mem => absurd mem List.not_mem_nil) calls

/-- **Where names live.** After any run of lessons, for any files, every binding outside of the global
scope has a name that starts with a variable behind its call marks. Class-qualified names and names of
functions live in the global scope only; there a look-up from any token of their file finds them. -/
theorem learnAll_homes (calls : List Call) :
    let s := learnAll {} calls
    ∀ b ∈ s.entries, (b.scope ≠ globalScope → VariableRooted b.name) ∧
      (¬ VariableRooted b.name → b.scope = globalScope ∧
        ∀ r : Resolver, r.bindings = s → r.file = b.file → ∀ index : Nat, ∃ type,
          s.lookup? b.name b.file globalScope index = some type ∧ r.lookup? index b.name = some type) := by
  intro s b mem
  have homed := homed_learnAll calls b mem
  refine ⟨homed, fun other => ?_⟩
  have global : b.scope = globalScope := of_not_not (mt homed other)
  refine ⟨global, fun r same file index => ?_⟩
  have found := Resolver.exists_lookup? (r := r) (same ▸ mem) file.symm global other index
  rw [same, file] at found
  exact found

/-- A property of a local variable moves to the global scope when the class of the variable is learned. -/
theorem learnAll_homes_property :
    let file : SourceFile := ⟨.ofText "/p/a.php",
      Lexer.tokenize (Utf8.encode "<?php function f() { $a->x = 1; $a = new Foo; }"), ""⟩
    let calls : List Call := [⟨{}, file, .bind 12 "Bar" (some "$a->x") none⟩,
      ⟨{}, file, .bind 20 "Foo" (some "$a") none⟩]
    let s := learnAll {} calls
    s.entries = [⟨"/p/a.php", 2, "$a", "Foo", 20⟩, ⟨"/p/a.php", 0, "Foo->x", "Bar", 12⟩] ∧ VariableRooted "$a" ∧
      ((Workspace.resolver {} file s).lookup? 20 "Foo->x").isSome = true := by
  intro file calls s
  have rows : s.entries = [⟨"/p/a.php", 2, "$a", "Foo", 20⟩, ⟨"/p/a.php", 0, "Foo->x", "Bar", 12⟩] := by decide +kernel
  have homes := learnAll_homes calls
  have rooted := (homes ⟨"/p/a.php", 2, "$a", "Foo", 20⟩ (rows ▸ .head _)).1 (by decide)
  have member := (homes ⟨"/p/a.php", 0, "Foo->x", "Bar", 12⟩ (rows ▸ .tail _ (.head _))).2 (by decide)
  obtain ⟨type, -, found⟩ := member.2 (Workspace.resolver {} file s) rfl (by decide +kernel) 20
  exact ⟨rows, rooted, found ▸ rfl⟩

end Bindings

end PhpRename
