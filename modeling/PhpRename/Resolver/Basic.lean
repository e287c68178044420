import PhpRename.Bindings.Basic
import PhpRename.Class.Hierarchy
import PhpRename.Include.Table

/-!
# Resolving names to types

A resolver answers what a name holds at a token of one file, from the bindings learned so far, the
include table and the class hierarchy. A look-up goes, in this order, to

* the file itself, in the scope of the reference;
* the files that it includes, for names of the global scope;
* for class-rooted names, the file that declares the class and then those of its parents.

A type that is found and is not a plain class name is resolved again from the same place, a bounded
number of times.
-/

set_option autoImplicit false

namespace PhpRename

/-- What is known while one file is looked at. -/
structure Resolver where
  includes : Includes
  classes : Hierarchy
  path : Path
  tokens : Tokens
  bindings : Bindings

namespace Resolver

open TypeExpr

/-- How many times a type may be resolved again. -/
def maxDepth : Nat := 16

/-- The name of the file in bindings. -/
def file (r : Resolver) : String := r.path.text

/-! ## Scopes and self-references -/

/-- The scope that a reference to a name belongs to: a variable belongs to its innermost class or
function unless it was declared global there, all other names are global. -/
def scopeOf (r : Resolver) (index : Nat) (name : String) : Int :=
  if isVariable (unmarked name) then
    match r.tokens[index]?.bind (·.bindingOwner?) with
    | none => globalScope
    | some owner =>
      if r.bindings.isGlobal (rootOf name) r.file owner.index then globalScope else owner.index
  else globalScope

/-- The name of the class around a token. -/
def enclosingClass? (r : Resolver) (index : Nat) : Option String := do
  let owner ← r.tokens[index]?.bind (·.classOwner?)
  (r.tokens.declaredName? owner).map Name.short

/-- The class that a word or variable for the present class, or for its parent, stands for. -/
def selfClass? (r : Resolver) (index : Nat) (root : String) : Option String :=
  match Ascii.lower root with
  | "$this" | "self" | "static" => r.enclosingClass? index
  | "parent" => (r.enclosingClass? index).bind r.classes.parent?
  | _ => none

/-- A name whose root stands for a class by way of the present one, with that class as root. -/
def normalizeRoot (r : Resolver) (index : Nat) (name : String) : String :=
  match r.selfClass? index (rootOf name) with
  | some cls => withRoot name cls
  | none => name

/-! ## Look-up -/

/-- The binding of a class-rooted name for one class: in the file itself unless it is the class
that the look-up started from, then in the file that declares the class. -/
def lookupMember? (r : Resolver) (name : String) (isFirst : Bool) (cls : String) : Option String :=
  let qualified := withRoot name cls
  let here := if isFirst then none else r.bindings.lookup? qualified r.file globalScope endOfFile
  here.or <| (r.classes.file? cls).bind fun file =>
    if file.same r.path then none else r.bindings.lookup? qualified file.text globalScope endOfFile

/-- The binding of a class-rooted member name, by way of the class and its parents, nearest
first. -/
def lookupInherited? (r : Resolver) (name : String) : Option String :=
  if isVariable (unmarked name) || (afterRoot name).isEmpty then none
  else
    (r.lookupMember? name true (rootOf name)).or
      ((r.classes.ancestors (rootOf name)).findSome? (r.lookupMember? name false))

/-- The type that is bound to a name, as seen from a token, without resolving it further. -/
def lookup? (r : Resolver) (index : Nat) (name : String) : Option String :=
  let scope := r.scopeOf index name
  (r.bindings.lookup? name r.file scope index).or <|
    if scope != globalScope then none
    else
      ((r.includes.of r.path).findSome? fun p =>
        r.bindings.lookup? name p.text globalScope endOfFile).or (r.lookupInherited? name)

/-- Resolves the links of a type expression, left to right, by a function that gives the type of a
name. -/
def resolveWith (typeOf : String → Option String) : TypeExpr → String
  | named name => name
  | chain base members =>
    members.foldl (fun text member =>
      let longer := text ++ separator ++ member
      (typeOf longer).getD longer) ((typeOf base).getD base)
  | call callee =>
    let result := marked (unmarked (resolveWith typeOf callee))
    (typeOf result).getD result

/-- Resolves a type text by a function that gives the type of a name. -/
def resolveText (typeOf : String → Option String) (text : String) : String :=
  match parse? text with
  | some t => resolveWith typeOf t
  | none => text

/-- The type of a name at a token, when what is found is resolved again by a function that gives the
type of a name. -/
def typeWith (r : Resolver) (index : Nat) (typeOf : String → Option String) (name : String) : Option String :=
  let normalized := r.normalizeRoot index name
  match if normalized != name then parse? normalized else none with
  | some (named cls) => some cls
  | _ =>
    (r.lookup? index normalized).map fun found =>
      if specificityOf found == some 0 then found else resolveText typeOf found

/-- The type of a name that stands for itself is what its look-up finds, resolved further when that is
not a class. -/
theorem typeWith_of_normalizeRoot {r : Resolver} {index : Nat} {name : String}
    (itself : r.normalizeRoot index name = name) (typeOf : String → Option String) :
    r.typeWith index typeOf name = (r.lookup? index name).map fun found =>
      if specificityOf found == some 0 then found else resolveText typeOf found := by
  unfold typeWith
  simp only [itself, bne_self_eq_false, Bool.false_eq_true, if_false]

/-- The type of a name at a token, when types may be resolved again fewer than `budget` times. -/
def typeWithin (r : Resolver) (index : Nat) : Nat → String → Option String
  | 0, _ => none
  | budget + 1, name => r.typeWith index (r.typeWithin index budget) name

/-- The best-known type of a name at a token; none when nothing is known. -/
def typeOf? (r : Resolver) (index : Nat) (name : String) : Option String :=
  r.typeWithin index (maxDepth + 1) name

/-- The best-known type of the text of a token. -/
def typeAt? (r : Resolver) (index : Nat) : Option String :=
  r.tokens[index]?.bind fun t => r.typeOf? index t.text

end Resolver

end PhpRename
