import PhpRename.Proofs.Token.Steps
import PhpRename.Proofs.TypeExpr.Text
import PhpRename.Resolver.Expression

/-!
# Types in steps

Looking up a name and resolving the type that is found for it, by runs with a number of steps. The result of a call is
resolved by the text of its callee, which is taken apart anew, and only a count of the types on the way keeps a
type from being resolved forever.

That count is enough (`typeRun_returns`): whatever is bound, in circles or to texts that grow, every type that
is resolved further takes one off what is left, and the structure of one type is finite.
-/

set_option autoImplicit false

namespace PhpRename.Resolver

open TypeExpr

/-! ## Types -/

section

variable (classOf found : String → Option String)

mutual

/-- Looking up the type of a name, so many types deep: by the class that the name stands for by itself, else by
what is found for it. -/
def typeRun : Nat → Nat → String → Except Fault (Option String)
  | 0, _, _ => .error .outOfSteps
  | steps + 1, depth, name =>
    if maxDepth < depth then .ok none
    else
      match classOf name with
      | some cls => .ok (some cls)
      | none =>
        match found name with
        | none => .ok none
        | some type =>
          if specificityOf type == some 0 then .ok (some type)
          else return some (← resolveRun steps (depth + 1) type)

/-- Resolving the links of a type text, left to right. -/
def resolveRun : Nat → Nat → String → Except Fault String
  | 0, _, _ => .error .outOfSteps
  | steps + 1, depth, text =>
    match parse? text with
    | none => .ok text
    | some (named name) => .ok name
    | some (chain base members) => do
      let first ← typeRun steps depth base
      members.foldlM (fun text member => do
        let longer := text ++ separator ++ member
        return (← typeRun steps depth longer).getD longer) (first.getD base)
    | some (call callee) => do
      let result := marked (unmarked (← resolveRun steps depth callee.render))
      return (← typeRun steps depth result).getD result

end

end

section

variable {classOf found : String → Option String} {depth : Nat} {typeOf : String → Option String}
  (types : ∀ name, Returns (typeRun classOf found · depth name) (typeOf name))
include types

/-- Where looking up a name returns, the links of a chain are resolved. -/
theorem members_returns (members : List String) (first : String) :
    Returns (fun steps => members.foldlM (fun text member => do
      let longer := text ++ separator ++ member
      return (← typeRun classOf found steps depth longer).getD longer) first)
      (members.foldl (fun text member =>
        let longer := text ++ separator ++ member
        (typeOf longer).getD longer) first) := by
  induction members generalizing first with
  | nil => exact ⟨0, fun _ _ => rfl⟩
  | cons member members ih =>
    obtain ⟨enough, found⟩ := types (first ++ separator ++ member)
    obtain ⟨enough', rest⟩ := ih ((typeOf (first ++ separator ++ member)).getD (first ++ separator ++ member))
    refine ⟨max enough enough', fun steps le => ?_⟩
    have looked := found steps (by omega)
    dsimp only at looked ⊢
    rw [List.foldlM_cons, List.foldl_cons, looked]
    exact rest steps (by omega)

/-- A type text is resolved along its structure. -/
theorem resolveRun_returns {t : TypeExpr} {text : String} (parsed : parse? text = some t) :
    Returns (resolveRun classOf found · depth text) (resolveWith typeOf t) := by
  induction t generalizing text with
  | named name =>
    refine .next (.of_forall fun steps => ?_)
    rw [resolveRun, parsed]
    rfl
  | chain base members =>
    refine .next ?_
    filter_upwards [(types base).eventually, (members_returns types members ((typeOf base).getD base)).eventually] with
      steps first rest
    rw [resolveRun, parsed]
    dsimp only
    rw [first]
    exact rest
  | call callee ih =>
    let result := marked (unmarked (resolveWith typeOf callee))
    refine .next ?_
    filter_upwards [(ih (parse?_callee parsed)).eventually, (types result).eventually] with steps inner outer
    rw [resolveRun, parsed]
    dsimp only
    rw [inner]
    dsimp only [bind, Except.bind]
    rw [outer]
    rfl

theorem resolveText_returns (text : String) :
    Returns (resolveRun classOf found · depth text) (resolveText typeOf text) := by
  rw [resolveText]
  cases parsed : parse? text with
  | none =>
    refine .next (.of_forall fun steps => ?_)
    rw [resolveRun, parsed]
  | some t => exact resolveRun_returns types parsed

end

/-- The class that a name stands for by way of the present one. -/
def classOf? (r : Resolver) (index : Nat) (name : String) : Option String :=
  let normalized := r.normalizeRoot index name
  match if normalized != name then parse? normalized else none with
  | some (named cls) => some cls
  | _ => none

/-- What is found for a name. -/
def found? (r : Resolver) (index : Nat) (name : String) : Option String := r.lookup? index (r.normalizeRoot index name)

theorem typeWith_eq (r : Resolver) (index : Nat) (typeOf : String → Option String) (name : String) :
    r.typeWith index typeOf name = (r.classOf? index name).or ((r.found? index name).map fun type =>
      if specificityOf type == some 0 then type else resolveText typeOf type) := by
  unfold typeWith classOf? found?
  dsimp only
  generalize r.normalizeRoot index name = normalized
  generalize r.lookup? index normalized = type?
  generalize (if normalized != name then parse? normalized else none) = stands
  cases stands with
  | none => exact Option.none_or.symm
  | some t =>
    cases t with
    | named cls => exact Option.some_or.symm
    | chain base members => exact Option.none_or.symm
    | call callee => exact Option.none_or.symm

/-- Looking up a name returns, whatever is bound: with every type that is resolved further, one less may be. -/
theorem typeRun_returns (r : Resolver) (index : Nat) {budget depth : Nat} (deep : depth + budget = maxDepth + 1)
    (name : String) :
    Returns (typeRun (r.classOf? index) (r.found? index) · depth name) (r.typeWithin index budget name) := by
  induction budget generalizing depth name with
  | zero =>
    have past : maxDepth < depth := by omega
    refine .next (.of_forall fun steps => ?_)
    rw [typeRun, if_pos past]
    rfl
  | succ budget ih =>
    have shallow : ¬ maxDepth < depth := by omega
    have types (name : String) :
        Returns (typeRun (r.classOf? index) (r.found? index) · (depth + 1) name) (r.typeWithin index budget name) :=
      ih (by omega) name
    rw [typeWithin, typeWith_eq]
    cases stands : r.classOf? index name with
    | some cls =>
      refine .next (.of_forall fun steps => ?_)
      rw [typeRun, if_neg shallow, stands]
      rfl
    | none =>
      rw [Option.none_or]
      cases looked : r.found? index name with
      | none =>
        refine .next (.of_forall fun steps => ?_)
        rw [typeRun, if_neg shallow, stands, looked]
        rfl
      | some type =>
        rw [Option.map_some]
        split
        · rename_i isClass
          refine .next (.of_forall fun steps => ?_)
          rw [typeRun, if_neg shallow, stands, looked]
          dsimp only
          rw [if_pos isClass]
        · rename_i further
          refine .next ?_
          filter_upwards [(resolveText_returns types type).eventually] with steps resolved
          rw [typeRun, if_neg shallow, stands, looked]
          dsimp only
          rw [if_neg further, resolved]
          rfl

end PhpRename.Resolver
