import PhpRename.Edit.Basic
import PhpRename.Include.Table

/-!
# Moving a file

Includes that name the moved file get the text that names its new place. A single plain string is
edited with high confidence, a concatenation or an anchored path with low confidence; one that goes
over several lines is left alone.
-/

set_option autoImplicit false

namespace PhpRename.FileRename

/-- The new path text for an include of the moved file, and the confidence. -/
def rewritten? (old new dir : Path) (argument : IncludeArgument) (literal : String) :
    Option (String × Confidence) :=
  if argument.anchored then
    if (Path.absolute (.ofText (Path.withoutSlashes literal)) dir).same old then
      some ("/" ++ new.relativeTo dir, .low)
    else none
  else
    (Path.matchInclude? old literal dir).map fun found =>
      (Path.rewriteInclude literal found new, if argument.isSingle then .high else .low)

/-- The edit that puts a path text in the place of the strings of an argument. -/
def edit? (ts : Tokens) (argument : IncludeArgument) (text : String) (confidence : Confidence) :
    Option Edit := do
  let first ← argument.first? ts
  let last ← argument.last? ts
  let quote := String.singleton (argument.quote ts)
  if first.position.line == last.position.line then
    some ⟨first.position.line, first.position.column,
      (last.position.column - first.position.column) + last.byteSize, quote ++ text ++ quote, confidence⟩
  else none

/-- The edits for the token at `i`. -/
def edits (old new path : Path) (ts : Tokens) (i : Nat) : List Edit :=
  Option.toList do
    let argument ← IncludeArgument.at? ts i
    let literal ← argument.literal? ts
    let (text, confidence) ← rewritten? old new path.directory argument literal
    edit? ts argument text confidence

end PhpRename.FileRename
