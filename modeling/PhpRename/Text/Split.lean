/-!
# Cutting and joining text

Pieces of a text between separators, and the parts of a text at its ends. Cutting and joining work on
lists of characters and of bytes alike, and `join_splitOn` says that joining the pieces gives the text back.
-/

set_option autoImplicit false

namespace PhpRename.Text

section

variable {α : Type}

/-- The pieces of a text between separators: at least one, and one more than separators. -/
def splitOn (sep : α → Bool) : List α → List (List α)
  | [] => [[]]
  | c :: rest =>
    if sep c then [] :: splitOn sep rest
    else
      match splitOn sep rest with
      | [] => [[c]]
      | piece :: pieces => (c :: piece) :: pieces

/-- The pieces with a separator between them. -/
def join (sep : α) : List (List α) → List α
  | [] => []
  | [piece] => piece
  | piece :: next :: pieces => piece ++ sep :: join sep (next :: pieces)

end

/-- What follows the last separator, the whole text if there is none. -/
def afterLast (sep : Char) (cs : List Char) : List Char :=
  (cs.reverse.takeWhile (· != sep)).reverse

/-- Drops every leading character that satisfies a test, and those at the end. -/
def stripEnds (test : Char → Bool) (cs : List Char) : List Char :=
  ((cs.dropWhile test).reverse.dropWhile test).reverse

/-- What is left of a text after a given beginning. -/
def after? : List Char → List Char → Option (List Char)
  | [], cs => some cs
  | _ :: _, [] => none
  | p :: ps, c :: cs => if p == c then after? ps cs else none

/-- Whether a text holds another as a stretch. -/
def holds (part : List Char) : List Char → Bool
  | [] => part.isEmpty
  | c :: rest => part.isPrefixOf (c :: rest) || holds part rest

theorem splitOn_ne_nil {α : Type} (sep : α → Bool) (cs : List α) : splitOn sep cs ≠ [] := by
  induction cs with
  | nil => simp [splitOn]
  | cons c rest ih =>
    rw [splitOn]
    split
    · simp
    · split <;> simp

/-- Joining the pieces between one separator gives the text back. -/
theorem join_splitOn {α : Type} [BEq α] [LawfulBEq α] (sep : α) (cs : List α) :
    join sep (splitOn (· == sep) cs) = cs := by
  induction cs with
  | nil => rfl
  | cons c rest ih =>
    rw [splitOn]
    have hne := splitOn_ne_nil (· == sep) rest
    cases hp : splitOn (· == sep) rest with
    | nil => exact absurd hp hne
    | cons piece pieces =>
      rw [hp] at ih
      by_cases hc : (c == sep) = true
      · have : c = sep := by simpa using hc
        subst this
        simp [join, ih]
      · simp only [hc]
        cases pieces with
        | nil => simpa [join] using ih
        | cons q qs => simpa [join] using ih

end PhpRename.Text
