import PhpRename.Resolver.Declared
import PhpRename.Resolver.Expression
import PhpRename.Resolver.Record
import PhpRename.Token.Signature

/-!
# Types learned from code

Assignments bind their target to the type of the expression; declarations bind parameters,
properties, `catch` variables and return types to the classes that they name; `global` ties a name
to the global one. Each function takes a resolver to one that has learned what the token says.
-/

set_option autoImplicit false

namespace PhpRename

/-- The innermost open parenthesis before an index within its statement. -/
def Tokens.enclosingParen? (ts : Tokens) (i : Nat) : Option Nat :=
  match i with
  | 0 => none
  | j + 1 =>
    if ts.isAt .openParen j then some j
    else if ts.isAt .semicolon j || ts.isAt .openBrace j then none
    else enclosingParen? ts (min (ts.groupStart j) j)
termination_by i
decreasing_by omega

/-- Whether the parenthesis at an index starts the parameter list of a function. -/
def Tokens.opensParameters (ts : Tokens) (i : Nat) : Bool :=
  match ts.prevSignificant? i with
  | none => false
  | some prev =>
    match ts.kindAt? prev with
    | some .kwFunction => true
    | some .reservedWord => Ascii.sameIgnoringCase (ts.textAt prev) "fn"
    | some .identifier =>
      match ts.prevSignificant? prev with
      | none => false
      | some before =>
        if ts.isAt .ampersand before then (ts.prevSignificant? before).any (ts.isAt .kwFunction)
        else ts.isAt .kwFunction before
    | _ => false

namespace Tracking

/-- The last token of the target of the assignment at `i`: a variable, or a member name. -/
def assignmentTarget? (ts : Tokens) (i : Nat) : Option Nat :=
  (ts.prevSignificant? i).filter fun target =>
    ts.isAt .variableName target ||
      (ts.isAt .identifier target && (ts.prevSignificant? target).any (ts.kindSatisfies (·.isAccess)))

/-- Whether a parameter list is open around an index: a default value assigns nothing. -/
def isDefaultValue (ts : Tokens) (i : Nat) : Bool := (ts.enclosingParen? i).any ts.opensParameters

/-- An assignment binds its target to the type of the expression. -/
def assignment (r : Resolver) (i : Nat) : Resolver :=
  match assignmentTarget? r.tokens i with
  | none => r
  | some target =>
    if isDefaultValue r.tokens i then r
    else
      match r.assignedType? i with
      | none => r
      | some type =>
        let name := r.targetName (r.tokens.chainStart target) target
        if name.isEmpty || Text.holds "[]".toList name.toList then r
        else r.bindName target type name none

/-- The variables that the `global` declaration at `i` lists. -/
def globalVariables (ts : Tokens) (i : Nat) : List Nat :=
  let listed := ts.significantWhile (fun k => k == .variableName || k == .comma) (i + 1)
  (listed.filter fun t => t.2.kind == .variableName).map (·.1)

/-- A `global` declaration ties its variables to the global ones. -/
def globals (r : Resolver) (i : Nat) : Resolver :=
  (globalVariables r.tokens i).foldl Resolver.markGlobal r

/-- A parameter binds its variable in the body of the function, and the property when it is
promoted. -/
def parameter (function : Nat) (hasBody : Bool) (owner : Option Int) (r : Resolver) (p : Parameter) :
    Resolver :=
  match r.declaredClass? function p.declared with
  | none => r
  | some cls =>
    let name := r.tokens.textAt p.variableIndex
    let r := match p.promoted, owner with
      | some modifier, some owner => r.bindName modifier cls name (some owner)
      | _, _ => r
    if hasBody then r.bindName p.variableIndex cls name (some function) else r

/-- The result of the function at `function` is a class. -/
def returns (r : Resolver) (function : Nat) (declared : String) : Resolver :=
  match Signature.nameIndex? r.tokens function, r.declaredClass? function declared with
  | some name, some cls => r.bindName name cls (TypeExpr.marked (r.tokens.textAt name)) none
  | _, _ => r

/-- A function declaration binds its parameters and its result. -/
def function (r : Resolver) (i : Nat) : Resolver :=
  match Signature.bounds? r.tokens i with
  | none => r
  | some (opening, closing) =>
    let hasBody := (r.tokens[i]?.bind (·.scopeOpener)).isSome
    let owner := ((r.tokens[i]?.bind (·.bindingOwner?)).filter (·.kind.isClassLike)).map
      fun o => (o.index : Int)
    let r := (Signature.parameters r.tokens opening closing).foldl (parameter i hasBody owner) r
    match Signature.returnType? r.tokens closing with
    | some declared => returns r i declared
    | none => r

/-- The first variable of a `catch` and the type text before it. -/
def caught? (declared : String) : List (Nat × Token) → Option (Nat × String)
  | [] => none
  | (i, t) :: rest =>
    match t.kind with
    | .identifier | .pipe => caught? (declared ++ t.text) rest
    | .variableName => some (i, declared)
    | _ => caught? declared rest

/-- Binds the variable at an index to the class that a declared type names. -/
def declare (r : Resolver) (i : Nat) (declared : String) : Resolver :=
  match r.declaredClass? i declared with
  | some cls => r.bindToken i cls none
  | none => r

/-- A `catch` binds its variable. -/
def catches (r : Resolver) (i : Nat) : Resolver :=
  match (r.tokens.nextSignificant? i).filter (r.tokens.isAt .openParen) with
  | none => r
  | some opening =>
    match r.tokens.matching? opening with
    | none => r
    | some closing =>
      match caught? "" (r.tokens.significantIn (opening + 1) closing) with
      | some (i, declared) => declare r i declared
      | none => r

/-- Kinds that spell the declared type of a property. -/
def spellsPropertyType : TokenKind → Bool
  | .identifier | .question | .pipe => true
  | _ => false

/-- The variable of the property declaration whose first modifier is at `i`, and the type text
before it. -/
def property? (ts : Tokens) (i : Nat) : Option (Nat × String) :=
  let words := ts.significantWhile (fun k => k.isModifier || spellsPropertyType k) (i + 1)
  let last := (words.getLast?.map (·.1)).getD i
  let spelled := words.filter fun t => spellsPropertyType t.2.kind
  ((ts.nextSignificant? last).filter (ts.isAt .variableName)).map fun v =>
    (v, String.join (spelled.map fun t => t.2.text))

/-- The first modifier of a property declaration binds the property. -/
def property (r : Resolver) (i : Nat) : Resolver :=
  let atClassLevel := (r.tokens[i]?.map (·.atClassLevel)).getD false
  let isFirst := !(r.tokens.prevSignificant? i).any (r.tokens.kindSatisfies (·.isModifier))
  if atClassLevel && (r.tokens.enclosingParen? i).isNone && isFirst then
    match property? r.tokens i with
    | some (i, declared) => declare r i declared
    | none => r
  else r

end Tracking

end PhpRename
