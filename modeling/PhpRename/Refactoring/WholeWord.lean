import PhpRename.Text.Utf8
import PhpRename.Text.Word

/-!
# Whole words in a text

Where a name stands as a word of its own: a boundary lies where a word character meets one that is
none, or an end of the text.
-/

set_option autoImplicit false

namespace PhpRename.WholeWord

/-- Whether a boundary lies between two neighbouring characters; none stands for an end of the
text. -/
def isBoundary (before after : Option Char) : Bool := before.any Word.inWord != after.any Word.inWord

/-- Whether `name` stands as a word at the start of a text, given the character before it. -/
def startsHere (name : List Char) (before : Option Char) (cs : List Char) : Bool :=
  name.isPrefixOf cs && isBoundary before cs.head? &&
    isBoundary (name.getLast?.or before) (cs.drop name.length).head?

/-- The byte offsets at which `name` stands as a word, left to right and without overlap; `offset`
bytes lie before the text, and `skip` characters belong to the last occurrence. -/
def offsetsFrom (name : List Char) (before : Option Char) (offset skip : Nat) : List Char → List Nat
  | [] => if skip == 0 && startsHere name before [] then [offset] else []
  | c :: rest =>
    if skip == 0 && startsHere name before (c :: rest) then
      offset :: offsetsFrom name (some c) (offset + c.utf8Size) (name.length - 1) rest
    else offsetsFrom name (some c) (offset + c.utf8Size) (skip - 1) rest

/-- The byte offsets at which a name stands as a word of a text. -/
def offsets (name text : String) : List Nat := offsetsFrom name.toList none 0 0 text.toList

end PhpRename.WholeWord
