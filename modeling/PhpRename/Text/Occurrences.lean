/-!
# Occurrences in a text

Reading a text from left to right for stretches that a reader accepts; the next one is looked for
after the end of the last.
-/

set_option autoImplicit false

namespace PhpRename.Text

/-- What a reader finds in a text, left to right and without overlap, once `skip` characters have
been passed over. The reader gives a value and the length of the stretch it accepts. -/
def occurrencesAfter {α : Type} (read : List Char → Option (α × Nat)) : Nat → List Char → List α
  | _, [] => []
  | skip + 1, _ :: rest => occurrencesAfter read skip rest
  | 0, c :: rest =>
    match read (c :: rest) with
    | some (value, length) => value :: occurrencesAfter read (length - 1) rest
    | none => occurrencesAfter read 0 rest

/-- What a reader finds in a text, left to right and without overlap. -/
def occurrences {α : Type} (read : List Char → Option (α × Nat)) (cs : List Char) : List α :=
  occurrencesAfter read 0 cs

end PhpRename.Text
