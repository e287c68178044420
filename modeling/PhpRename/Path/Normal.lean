import PhpRename.Path.Basic

/-!
# Normal paths

Lexical normalization: `.` components go, a `..` component takes the one before it along, and at
the root or at the start of a relative path it goes without effect. Nothing is read from disk.
-/

set_option autoImplicit false

namespace PhpRename.Path

open Ascii (byte)

/-- The names that are left after one more component, last name first. -/
def fold (names : List Bytes) : Component → List Bytes
  | .root => []
  | .current => names
  | .parent => names.tail
  | .normal name => name :: names

/-- The names of a normalized path, in order. -/
def normalNames (p : Path) : List Bytes := (p.components.foldl fold []).reverse

/-- The path with the given names, from the root or relative. -/
def ofNames (absolute : Bool) (names : List Bytes) : Path :=
  ⟨(if absolute then [byte '/'] else []) ++ Text.join (byte '/') names⟩

/-- The normalized path. -/
def normalize (p : Path) : Path := ofNames p.isAbsolute p.normalNames

/-- The path made absolute against a directory, and normalized. -/
def absolute (p base : Path) : Path := if p.isAbsolute then p.normalize else (base.push p).normalize

/-- The number of leading components that two paths share. -/
def commonLength : List Component → List Component → Nat
  | a :: as, b :: bs => if a == b then commonLength as bs + 1 else 0
  | _, _ => 0

/-- A path as seen from a directory, going up where needed. This is a text, so each name below the
directory is written as it is shown. -/
def relativeTo (target base : Path) : String :=
  let common := commonLength target.components base.components
  let ups := (base.components.drop common).map fun _ => ".."
  let downs := (target.components.drop common).map fun c => Utf8.decodeLossy c.bytes
  String.ofList (Text.join '/' ((ups ++ downs).map String.toList))

end PhpRename.Path
