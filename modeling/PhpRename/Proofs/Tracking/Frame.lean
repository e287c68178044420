import PhpRename.Tracking.Comment

/-!
# What tracking does

All that a token teaches are types offered for names, and names marked as global: `token_taught`
gives the lessons of a token. They teach bindings and nothing else: the file that is looked at, the
include table and the class hierarchy stay as they are.
-/

set_option autoImplicit false

namespace PhpRename

/-- What a resolver can be told. -/
inductive Lesson where
  /-- A type is offered for a name at a token: for the text of the token when no name is given, and in
  the scope of the token unless one is. -/
  | bind (index : Nat) (type : String) (name : Option String) (scope : Option Int)
  /-- The variable at a token is the global one. -/
  | markGlobal (index : Nat)

/-- The second resolver knows other bindings than the first and is the same otherwise. -/
def Resolver.Learns (r s : Resolver) : Prop := ∃ bindings, s = { r with bindings := bindings }

namespace Resolver

variable {r s u : Resolver}

namespace Learns

theorem refl (r : Resolver) : r.Learns r := ⟨r.bindings, rfl⟩

theorem trans (h : r.Learns s) (h' : s.Learns u) : r.Learns u := by
  obtain ⟨_, rfl⟩ := h
  obtain ⟨bindings, rfl⟩ := h'
  exact ⟨bindings, rfl⟩

theorem tokens (h : r.Learns s) : s.tokens = r.tokens := by
  obtain ⟨_, rfl⟩ := h
  rfl

theorem path (h : r.Learns s) : s.path = r.path := by
  obtain ⟨_, rfl⟩ := h
  rfl

/-- What each step of a loop leaves alone, the loop leaves alone. -/
theorem foldl {α : Type} {step : Resolver → α → Resolver} (each : ∀ (r : Resolver) (x : α), r.Learns (step r x))
    (xs : List α) (r : Resolver) : r.Learns (xs.foldl step r) := by
  induction xs generalizing r with
  | nil => exact refl r
  | cons x xs ih => exact (each r x).trans (ih (step r x))

end Learns

theorem bindName_learns (r : Resolver) (index : Nat) (type name : String) (scope : Option Int) :
    r.Learns (r.bindName index type name scope) := by
  unfold bindName
  simp only
  split
  · exact .refl r
  · exact ⟨_, rfl⟩

theorem bindToken_learns (r : Resolver) (index : Nat) (type : String) (scope : Option Int) :
    r.Learns (r.bindToken index type scope) := by
  unfold bindToken
  split
  · exact r.bindName_learns ..
  · exact .refl r

theorem markGlobal_learns (r : Resolver) (index : Nat) : r.Learns (r.markGlobal index) := by
  unfold markGlobal
  split
  · exact .refl r
  · split
    · exact .refl r
    · exact ⟨_, rfl⟩

/-! ## Lessons -/

/-- The resolver after a lesson. -/
def learn (r : Resolver) : Lesson → Resolver
  | .bind index type (some name) scope => r.bindName index type name scope
  | .bind index type none scope => r.bindToken index type scope
  | .markGlobal index => r.markGlobal index

theorem learn_learns (r : Resolver) (lesson : Lesson) : r.Learns (r.learn lesson) := by
  cases lesson with
  | bind index type name scope =>
    cases name with
    | none => exact r.bindToken_learns ..
    | some name => exact r.bindName_learns ..
  | markGlobal index => exact r.markGlobal_learns index

/-- The second resolver is the first one after some lessons. -/
def Taught (r s : Resolver) : Prop := ∃ lessons : List Lesson, s = lessons.foldl learn r

namespace Taught

theorem refl (r : Resolver) : r.Taught r := ⟨[], rfl⟩

theorem one (r : Resolver) (lesson : Lesson) : r.Taught (r.learn lesson) := ⟨[lesson], rfl⟩

theorem trans (h : r.Taught s) (h' : s.Taught u) : r.Taught u := by
  obtain ⟨before, rfl⟩ := h
  obtain ⟨later, rfl⟩ := h'
  exact ⟨before ++ later, by rw [List.foldl_append]⟩

theorem learns (h : r.Taught s) : r.Learns s := by
  obtain ⟨lessons, rfl⟩ := h
  exact .foldl learn_learns lessons r

/-- Where each step of a loop teaches lessons, the loop does. -/
theorem foldl {α : Type} {step : Resolver → α → Resolver} (each : ∀ (r : Resolver) (x : α), r.Taught (step r x))
    (xs : List α) (r : Resolver) : r.Taught (xs.foldl step r) := by
  induction xs generalizing r with
  | nil => exact refl r
  | cons x xs ih => exact (each r x).trans (ih (step r x))

end Taught

theorem bindName_taught (r : Resolver) (index : Nat) (type name : String) (scope : Option Int) :
    r.Taught (r.bindName index type name scope) := .one r (.bind index type (some name) scope)

theorem bindToken_taught (r : Resolver) (index : Nat) (type : String) (scope : Option Int) :
    r.Taught (r.bindToken index type scope) := .one r (.bind index type none scope)

theorem markGlobal_taught (r : Resolver) (index : Nat) : r.Taught (r.markGlobal index) := .one r (.markGlobal index)

end Resolver

namespace Tracking

open Resolver

/-! ## Code -/

theorem assignment_taught (r : Resolver) (i : Nat) : r.Taught (assignment r i) := by
  unfold assignment
  split
  · exact .refl r
  split
  · exact .refl r
  split
  · exact .refl r
  simp only
  split
  · exact .refl r
  · exact r.bindName_taught ..

theorem globals_taught (r : Resolver) (i : Nat) : r.Taught (globals r i) :=
  .foldl markGlobal_taught _ r

theorem parameter_taught (function : Nat) (hasBody : Bool) (owner : Option Int) (r : Resolver) (p : Parameter) :
    r.Taught (parameter function hasBody owner r p) := by
  unfold parameter
  split
  · exact .refl r
  have body (r' : Resolver) (promoted : r.Taught r') (cls : String) (name : String) :
      r.Taught (if hasBody then r'.bindName p.variableIndex cls name (some function) else r') := by
    split
    · exact promoted.trans (bindName_taught ..)
    · exact promoted
  apply body
  split
  · exact r.bindName_taught ..
  · exact .refl r

theorem returns_taught (r : Resolver) (function : Nat) (declared : String) :
    r.Taught (returns r function declared) := by
  unfold returns
  split
  · exact r.bindName_taught ..
  · exact .refl r

theorem function_taught (r : Resolver) (i : Nat) : r.Taught (function r i) := by
  unfold function
  split
  · exact .refl r
  rename_i opening closing _
  have parameters := Taught.foldl (parameter_taught i (r.tokens[i]?.bind (·.scopeOpener)).isSome
    (((r.tokens[i]?.bind (·.bindingOwner?)).filter (·.kind.isClassLike)).map fun o => (o.index : Int)))
    (Signature.parameters r.tokens opening closing) r
  simp only
  split
  · exact parameters.trans (returns_taught ..)
  · exact parameters

theorem declare_taught (r : Resolver) (i : Nat) (declared : String) : r.Taught (declare r i declared) := by
  unfold declare
  split
  · exact r.bindToken_taught ..
  · exact .refl r

theorem catches_taught (r : Resolver) (i : Nat) : r.Taught (catches r i) := by
  unfold catches
  split
  · exact .refl r
  split
  · exact .refl r
  split
  · exact declare_taught r ..
  · exact .refl r

theorem property_taught (r : Resolver) (i : Nat) : r.Taught (property r i) := by
  unfold property
  simp only
  split
  · split
    · exact declare_taught r ..
    · exact .refl r
  · exact .refl r

/-! ## Doc comments -/

theorem var_taught (i : Nat) (r : Resolver) (tag : Tag.Var) : r.Taught (var i r tag) := by
  unfold var
  split
  · exact .refl r
  split
  · exact .refl r
  split
  · exact r.bindName_taught ..
  · exact r.bindToken_taught ..
  · exact .refl r

theorem param_taught (function : Nat) (r : Resolver) (tag : Tag.Param) : r.Taught (param function r tag) := by
  unfold param
  simp only
  split
  · exact .refl r
  split
  · exact .refl r
  split
  · exact r.bindName_taught ..
  · exact .refl r

theorem comment_taught (r : Resolver) (i : Nat) : r.Taught (comment r i) := by
  unfold comment
  have vars := Taught.foldl (var_taught i) (Tag.vars (r.tokens.textAt i)) r
  simp only
  split
  · exact vars
  rename_i function _
  have params := vars.trans (.foldl (param_taught function) (Tag.params (r.tokens.textAt i)) _)
  split
  · exact params.trans (returns_taught ..)
  · exact params

/-- What a token teaches are lessons. -/
theorem token_taught (r : Resolver) (i : Nat) : r.Taught (token r i) := by
  unfold token
  split
  · exact comment_taught r i
  · exact function_taught r i
  · exact catches_taught r i
  · exact property_taught r i
  · exact property_taught r i
  · exact property_taught r i
  · exact property_taught r i
  · exact property_taught r i
  · exact property_taught r i
  · exact globals_taught r i
  · exact assignment_taught r i
  · exact .refl r

/-- A token teaches bindings and nothing else. -/
theorem token_learns (r : Resolver) (i : Nat) : r.Learns (token r i) := (token_taught r i).learns

end Tracking

end PhpRename
