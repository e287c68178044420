import PhpRename.Resolver.Basic

/-!
# Recording what a name holds

A binding that sits directly in a class body is kept under the class-qualified name of the member,
in the global scope. A binding at a site gives way only to one that is nearer to a plain class
name, so sites settle.
-/

set_option autoImplicit false

namespace PhpRename.Resolver

open TypeExpr

/-- The name that a class-like keyword token declares. -/
def classLikeName? (r : Resolver) (owner : Int) : Option String :=
  if owner < 0 then none
  else if r.tokens.kindSatisfies Hierarchy.declares owner.toNat then
    (r.tokens.declaredName? owner.toNat).map Name.short
  else none

/-- The class whose member a binding at a token is; `scope` tells the scope when the token does
not. -/
def memberOf? (r : Resolver) (index : Nat) (scope : Option Int) : Option String :=
  match scope with
  | some owner => if owner == globalScope then none else r.classLikeName? owner
  | none =>
    ((r.tokens[index]?.bind (·.bindingOwner?)).filter (·.kind.isClassLike)).bind
      fun owner => r.classLikeName? owner.index

/-- The qualified name of a member of a class. -/
def memberName (cls name : String) : String :=
  let member := String.ofList ((unmarked name).toList.dropWhile (· == '$'))
  (if name.toList.head? == some callMark then marked cls else cls) ++ separator ++ member

/-- The name and scope under which a binding is kept. -/
def keyFor (r : Resolver) (index : Nat) (name : String) (scope : Option Int) : String × Int :=
  match r.memberOf? index scope with
  | some cls => (memberName cls name, globalScope)
  | none =>
    let name := r.normalizeRoot index name
    if isVariable (unmarked name) then (name, scope.getD (r.scopeOf index name))
    else (name, globalScope)

/-- Whether a site keeps its binding when a type is offered. -/
def keeps (r : Resolver) (index : Nat) (type : String) : Bool :=
  match r.bindings.typeAt? r.file index with
  | some existing => atLeastAsSpecific (specificityOf existing) (specificityOf type)
  | none => false

/-- Records that a name holds a type from a token on. -/
def bindName (r : Resolver) (index : Nat) (type name : String) (scope : Option Int) : Resolver :=
  let (name, scope) := r.keyFor index name scope
  if name == type || r.keeps index type then r
  else { r with bindings := r.bindings.record ⟨r.file, scope, name, type, index⟩ }

/-- Records that the text of a token holds a type from there on. -/
def bindToken (r : Resolver) (index : Nat) (type : String) (scope : Option Int) : Resolver :=
  match r.tokens[index]? with
  | some t => r.bindName index type t.text scope
  | none => r

/-- Marks the variable at a token as the global one within its function. -/
def markGlobal (r : Resolver) (index : Nat) : Resolver :=
  match r.tokens[index]? with
  | none => r
  | some t =>
    match t.bindingOwner? with
    | none => r
    | some owner =>
      { r with bindings := r.bindings.markGlobal ⟨r.file, owner.index, t.text, index⟩ }

end PhpRename.Resolver
