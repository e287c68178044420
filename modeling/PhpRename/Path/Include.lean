import PhpRename.Path.Normal

/-!
# Paths in include statements

Which file the path text of an include names, whether it names a given file, and how the text has
to change when that file moves.
-/

set_option autoImplicit false

namespace PhpRename.Path

/-- How an include text names a file. -/
inductive IncludeMatch where
  /-- The text is an absolute path. -/
  | absolute
  /-- The text is relative to `base`. -/
  | relative (base : Path)
  deriving DecidableEq, Repr

/-- Drops the leading slashes of a text. -/
def withoutSlashes (literal : String) : String := String.ofList (literal.toList.dropWhile (· == '/'))

/-- The file that an include text names, seen from the directory of the including file. A text that
is anchored there is relative whatever its leading slashes. -/
def ofInclude (literal : String) (anchored : Bool) (dir : Path) : Path :=
  if anchored then absolute (.ofText (withoutSlashes literal)) dir else absolute (.ofText literal) dir

/-- The path with its last components dropped. -/
def popN : Nat → Path → Path
  | 0, p => p
  | n + 1, p => popN n p.pop

/-- How an include text in a file of directory `dir` names the file `expected`. A relative text may
also name it from a directory above `expected`, as a search path would. -/
def matchInclude? (expected : Path) (literal : String) (dir : Path) : Option IncludeMatch :=
  let path := ofText literal
  if literal.isEmpty then none
  else if path.isAbsolute then if path.normalize.same expected then some .absolute else none
  else if (absolute path dir).same expected then some (.relative dir)
  else
    let tail := path.normalize
    if tail.bytes.isEmpty || !expected.endsWith tail then none
    else some (.relative (popN tail.components.length expected))

/-- The include text that names the moved file the way the old text named it, with a leading `./`
kept where the new text does not go up. -/
def rewriteInclude (literal : String) (found : IncludeMatch) (moved : Path) : String :=
  match found with
  | .absolute => String.ofList (moved.text.toList.map fun c => if c == '\\' then '/' else c)
  | .relative base =>
    let text := moved.relativeTo base
    if "./".toList.isPrefixOf literal.toList && !"..".toList.isPrefixOf text.toList then "./" ++ text
    else text

end PhpRename.Path
