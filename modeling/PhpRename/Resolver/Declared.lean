import PhpRename.Resolver.Basic
import PhpRename.TypeExpr.Declared

/-!
# Declared types in their place
-/

set_option autoImplicit false

namespace PhpRename.Resolver

/-- The class that a declared type names at a token, with the words for the present class and its
parent resolved there. -/
def declaredClass? (r : Resolver) (index : Nat) (declared : String) : Option String := do
  let cls ← Declared.className? declared
  match Ascii.lower cls with
  | "self" | "static" => r.enclosingClass? index
  | "parent" => (r.enclosingClass? index).bind r.classes.parent?
  | _ => some cls

end PhpRename.Resolver
