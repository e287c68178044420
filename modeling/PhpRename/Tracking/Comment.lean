import PhpRename.Tracking.Code
import PhpRename.Tracking.Tags

/-!
# Types learned from doc comments

A `@var` tag binds the named variable in the statement that follows, or the first variable after
the comment; `@param` and `@return` tags speak about the function that the comment documents.
-/

set_option autoImplicit false

namespace PhpRename.Tracking

/-- The type and the name of a `@var` tag, which may stand in either order. -/
def varParts? (tag : Tag.Var) : Option (String × Option String) :=
  let first := String.ofList tag.first
  if TypeExpr.isVariable first then tag.second.map fun type => (String.ofList type, some first)
  else some (first, (tag.second.map String.ofList).filter TypeExpr.isVariable)

/-- The variable of a name from `i` on, before the end of the statement. -/
def variableInStatement? (ts : Tokens) (name : String) (i : Nat) : Option Nat :=
  if h : i < ts.size then
    if ts[i].kind == .variableName && ts[i].text == name then some i
    else
      match ts[i].kind with
      | .semicolon | .openBrace | .closeBrace => none
      | _ => variableInStatement? ts name (i + 1)
  else none
termination_by ts.size - i

/-- The token that a `@var` tag binds at: a named tag without its variable in the statement binds
at the comment itself. -/
def varTarget? (ts : Tokens) (i : Nat) (name : Option String) : Option Nat :=
  match name with
  | some name => some ((variableInStatement? ts name (i + 1)).getD i)
  | none => ts.findFrom? (· == .variableName) (fun _ => false) i

/-- A `@var` tag binds its variable. -/
def var (i : Nat) (r : Resolver) (tag : Tag.Var) : Resolver :=
  match varParts? tag with
  | none => r
  | some (type, name) =>
    match varTarget? r.tokens i name with
    | none => r
    | some target =>
      match r.declaredClass? target type, name with
      | some cls, some name => r.bindName target cls name none
      | some cls, none => r.bindToken target cls none
      | none, _ => r

/-- The function that a comment documents, after modifiers and attributes. -/
def documented? (ts : Tokens) (i : Nat) : Option Nat :=
  match _h : ts.nextSignificant? i with
  | none => none
  | some next =>
    match ts.kindAt? next with
    | some .kwFunction => some next
    | some .openBracket => documented? ts (max (ts.groupEnd next) next)
    | some kind => if kind.isModifier then documented? ts next else none
    | none => none
termination_by ts.size - i
decreasing_by
  all_goals
    have := Tokens.lt_of_nextSignificant? _h
    omega

/-- A `@param` tag binds a parameter in the body of the function. -/
def param (function : Nat) (r : Resolver) (tag : Tag.Param) : Resolver :=
  let name := String.ofList tag.name
  if (r.tokens[function]?.bind (·.scopeOpener)).isNone then r
  else
    match Signature.bounds? r.tokens function with
    | none => r
    | some (opening, closing) =>
      let found := (Signature.parameters r.tokens opening closing).find? fun p =>
        r.tokens.textAt p.variableIndex == name
      match found, r.declaredClass? function (String.ofList tag.type) with
      | some p, some cls => r.bindName p.variableIndex cls name (some function)
      | _, _ => r

/-- A doc comment binds what its tags name. -/
def comment (r : Resolver) (i : Nat) : Resolver :=
  let text := r.tokens.textAt i
  let r := (Tag.vars text).foldl (var i) r
  match documented? r.tokens i with
  | none => r
  | some function =>
    let r := (Tag.params text).foldl (param function) r
    match Tag.return? text with
    | some type => returns r function (String.ofList type)
    | none => r

/-- What a token teaches, by its kind. -/
def token (r : Resolver) (i : Nat) : Resolver :=
  match r.tokens.kindAt? i with
  | some .docComment => comment r i
  | some .kwFunction => function r i
  | some .kwCatch => catches r i
  | some .kwPublic | some .kwProtected | some .kwPrivate | some .kwVar | some .kwStatic
  | some .kwReadonly => property r i
  | some .kwGlobal => globals r i
  | some .equal => assignment r i
  | _ => r

end PhpRename.Tracking
