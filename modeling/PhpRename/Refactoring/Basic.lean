import PhpRename.Path.Basic

/-!
# Refactorings
-/

set_option autoImplicit false

namespace PhpRename

/-- What a run renames. -/
inductive Refactoring where
  | renameClass (old new : String)
  | renameMethod (cls old new : String)
  | renameFile (old new : Path)
  deriving DecidableEq, Repr

/-- The name of a refactoring on the command line. -/
def Refactoring.name : Refactoring → String
  | renameClass .. => "rename-class"
  | renameMethod .. => "rename-method"
  | renameFile .. => "rename-file"

end PhpRename
