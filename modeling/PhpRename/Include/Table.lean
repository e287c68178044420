import PhpRename.Include.Argument

/-!
# The include table

The files that each file includes, in the order of the statements, so that a look-up can go on in
them.
-/

set_option autoImplicit false

namespace PhpRename

/-- The directory of a file; the root when the path has no parent. -/
def Path.directory (p : Path) : Path := p.parent?.getD (.ofText "/")

/-- The included files of each file. -/
structure Includes where
  entries : List (Path × List Path) := []
  deriving DecidableEq, Repr

namespace Includes

/-- The file that the include at `i` names. -/
def target? (dir : Path) (ts : Tokens) (i : Nat) : Option Path := do
  let argument ← IncludeArgument.at? ts i
  let literal ← argument.literal? ts
  some (Path.ofInclude literal argument.anchored dir)

/-- Paths in order, each once. -/
def distinct (paths : List Path) : List Path :=
  paths.foldl (fun found p => if found.any (·.same p) then found else found ++ [p]) []

/-- The files that a token sequence includes. -/
def targets (path : Path) (ts : Tokens) : List Path :=
  distinct ((List.range ts.size).filterMap (target? path.directory ts))

/-- Records what a file includes, in place of what was known of it. -/
def recordFile (s : Includes) (path : Path) (ts : Tokens) : Includes :=
  ⟨s.entries.filter (!·.1.same path) ++ [(path, targets path ts)]⟩

/-- The files that a file includes. -/
def of (s : Includes) (path : Path) : List Path :=
  ((s.entries.find? (·.1.same path)).map (·.2)).getD []

end Includes

end PhpRename
