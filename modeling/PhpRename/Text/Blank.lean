import PhpRename.Text.CodePoints

/-!
# White space

The characters with the Unicode property White_Space, and texts without them at their ends.
-/

set_option autoImplicit false

namespace PhpRename

namespace Blank

/-- The code points with the property White_Space. -/
def whiteSpace : CodePoints :=
  [(0x9, 0xd), (0x20, 0x20), (0x85, 0x85), (0xa0, 0xa0), (0x1680, 0x1680), (0x2000, 0x200a),
    (0x2028, 0x2029), (0x202f, 0x202f), (0x205f, 0x205f), (0x3000, 0x3000)]

/-- Whether a character is white space. -/
def isBlank (c : Char) : Bool := whiteSpace.mem c

/-- Drops white space from the start. -/
def trimStart (cs : List Char) : List Char := cs.dropWhile isBlank

/-- Drops white space from the end. -/
def trimEnd (cs : List Char) : List Char := (cs.reverse.dropWhile isBlank).reverse

/-- Drops white space from both ends. -/
def trim (cs : List Char) : List Char := trimEnd (trimStart cs)

end Blank

end PhpRename
