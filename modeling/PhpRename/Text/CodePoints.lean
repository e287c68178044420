/-!
# Sets of code points

A property of characters is kept as an ascending list of ranges of code points.
`mem_iff` says that membership is membership in one of the ranges.
-/

set_option autoImplicit false

namespace PhpRename

/-- A set of code points as ranges, both ends included. -/
abbrev CodePoints := List (Nat × Nat)

namespace CodePoints

/-- Whether a character lies in one of the ranges. -/
def mem (set : CodePoints) (c : Char) : Bool :=
  set.any fun r => r.1 ≤ c.toNat && c.toNat ≤ r.2

theorem mem_iff (set : CodePoints) (c : Char) :
    set.mem c = true ↔ ∃ r ∈ set, r.1 ≤ c.toNat ∧ c.toNat ≤ r.2 := by
  simp [mem]

end CodePoints

end PhpRename
