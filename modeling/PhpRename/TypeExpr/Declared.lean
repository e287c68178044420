import PhpRename.Name.Basic
import PhpRename.Text.Blank
import PhpRename.Text.Letter

/-!
# Declared types

The class that a declared type names, in a type hint or a doc comment. Of a union the first member
that names a class counts; scalars, pseudo-types, arrays and generic types name none.
-/

set_option autoImplicit false

namespace PhpRename.Declared

/-- Scalars and pseudo-types, which never name a class. -/
def builtin : List String :=
  ["int", "integer", "float", "double", "string", "bool", "boolean", "array", "callable",
    "iterable", "object", "mixed", "void", "null", "false", "true", "never", "resource", "scalar",
    "numeric"]

/-- Whether a character is a parenthesis. -/
def isParen (c : Char) : Bool := c == '(' || c == ')'

/-- One member of a union without blanks, nullability marks and parentheses. -/
def bare (member : List Char) : List Char :=
  Text.stripEnds isParen ((Blank.trim member).dropWhile (· == '?'))

/-- Whether a bare member may be a class: not empty, no array and no generic type. -/
def isPlain (member : List Char) : Bool :=
  !member.isEmpty && !([']', '['].isPrefixOf member.reverse) && !member.contains '<'

/-- Whether a name without namespace names a class. -/
def namesClass (name : String) : Bool :=
  !builtin.any (Ascii.sameIgnoringCase · name) &&
    name.toList.head?.any fun c => Letter.isAlphabetic c || c == '_'

/-- The class that a declared type names, without its namespace. -/
def className? (declared : String) : Option String :=
  let members := (Text.splitOn (fun c => c == '|' || c == '&') declared.toList).map bare
  ((members.filter isPlain).map fun m => Name.short (String.ofList m)).find? namesClass

end PhpRename.Declared
