import PhpRename.Edit.Basic
import PhpRename.Resolver.Declared
import PhpRename.Resolver.Expression

/-!
# Renaming a method

The declarations in the class and its subclasses, and the calls whose receiver is one of these, are
edited with high confidence. A call whose receiver is unknown, or is an ancestor of the class, is
edited with low confidence; calls on other classes are left alone.
-/

set_option autoImplicit false

namespace PhpRename.MethodRename

/-- The confidence of the declaration of the method at `i`. -/
def declarationConfidence? (cls : String) (r : Resolver) (i : Nat) : Option Confidence := do
  let owner ← (r.tokens[i]?.bind (·.bindingOwner?)).filter (·.kind.isClassLike)
  let name ← r.tokens.declaredName? owner.index
  if r.classes.isSubclassOf (Name.short name) cls then some .high else none

/-- The confidence of a call on a receiver of a type. -/
def receiverConfidence? (cls : String) (classes : Hierarchy) (type : Option String) :
    Option Confidence :=
  match type.bind TypeExpr.parse? with
  | some (.named receiver) =>
    if classes.isSubclassOf receiver cls then some .high
    else if classes.isSubclassOf cls receiver then some .low
    else none
  | _ => some .low

/-- The confidence of a call through the access operator at `operator`. -/
def callConfidence? (cls : String) (r : Resolver) (operator : Nat) : Option Confidence :=
  match r.tokens.prevSignificant? operator with
  | none => some .low
  | some receiver =>
    let namesClass := r.tokens.isAt .doubleColon operator &&
      r.tokens.kindSatisfies (fun k => k == .identifier || k == .kwStatic) receiver
    receiverConfidence? cls r.classes <|
      if namesClass then r.declaredClass? receiver (r.tokens.textAt receiver)
      else r.receiverType? receiver

/-- The significant token before `i`, where the `&` of a function that returns a reference does not
count. -/
def previous? (ts : Tokens) (i : Nat) : Option Nat := do
  let previous ← ts.prevSignificant? i
  if ts.isAt .ampersand previous then
    some (((ts.prevSignificant? previous).filter (ts.isAt .kwFunction)).getD previous)
  else some previous

/-- The confidence of an occurrence of the method's name at `i`. -/
def confidence? (cls : String) (r : Resolver) (i : Nat) : Option Confidence := do
  let previous ← previous? r.tokens i
  let kind ← r.tokens.kindAt? previous
  if kind == .kwFunction then declarationConfidence? cls r i
  else if kind.isAccess && (r.tokens.nextSignificant? i).any (r.tokens.isAt .openParen) then
    callConfidence? cls r previous
  else none

/-- The edits for the token at `i`. -/
def edits (cls old new : String) (r : Resolver) (i : Nat) : List Edit :=
  match r.tokens[i]? with
  | none => []
  | some t =>
    if t.kind == .identifier && t.text == old then
      (confidence? (Name.short cls) r i).toList.map fun confidence =>
        ⟨t.position.line, t.position.column, t.byteSize, new, confidence⟩
    else []

end PhpRename.MethodRename
