/-!
# Readers

A reader takes a value from the start of a text and leaves the rest, or refuses. A refusal leaves the
text as it was, so readers can be tried one after the other.
-/

set_option autoImplicit false

namespace PhpRename

/-- Reads a value from the start of a text. -/
abbrev Reader (α : Type) := StateT (List Char) Option α

namespace Reader

/-- Reads a character that satisfies a test. -/
def charThat (test : Char → Bool) : Reader Char := fun cs =>
  match cs with
  | [] => none
  | c :: rest => if test c then some (c, rest) else none

/-- Reads a given character. -/
def char (c : Char) : Reader Unit := do let _ ← charThat (· == c)

/-- Reads a given text. -/
def text : List Char → Reader Unit
  | [] => pure ()
  | c :: rest => do char c; text rest

/-- Reads the characters at the start that satisfy a test, perhaps none. -/
def charsThat (test : Char → Bool) : Reader (List Char) := fun cs =>
  some (cs.takeWhile test, cs.dropWhile test)

/-- Reads one or more characters that satisfy a test. -/
def someCharsThat (test : Char → Bool) : Reader (List Char) := do
  let c ← charThat test
  let rest ← charsThat test
  return c :: rest

/-- Reads a number of characters that satisfy a test. -/
def exactly (test : Char → Bool) : Nat → Reader (List Char)
  | 0 => pure []
  | n + 1 => do
    let c ← charThat test
    let rest ← exactly test n
    return c :: rest

/-- The next character, which stays where it is. -/
def peek? : Reader (Option Char) := fun cs => some (cs.head?, cs)

/-- Reads nothing, at the end of the text. -/
def atEnd : Reader Unit := fun cs => if cs.isEmpty then some ((), cs) else none

/-- Refuses unless a condition holds. -/
def require (condition : Bool) : Reader Unit := if condition then pure () else failure

/-- Reads a value if there is one. -/
def optional? {α : Type} (r : Reader α) : Reader (Option α) := some <$> r <|> pure none

/-- Reads values as long as there are some and each takes something from the text. -/
def manyFrom {α : Type} (r : Reader α) (cs : List Char) : List α × List Char :=
  match r cs with
  | none => ([], cs)
  | some (a, rest) =>
    if rest.length < cs.length then
      let (as, left) := manyFrom r rest
      (a :: as, left)
    else ([], cs)
termination_by cs.length

/-- Reads values as long as there are some. -/
def many {α : Type} (r : Reader α) : Reader (List α) := fun cs => some (manyFrom r cs)

/-- Reads one or more values with separators between them. -/
def separated {α : Type} (r : Reader α) (separator : Reader Unit) : Reader (List α) := do
  let first ← r
  let rest ← many (do separator; r)
  return first :: rest

/-- Reads values with separators between them, perhaps none. -/
def anySeparated {α : Type} (r : Reader α) (separator : Reader Unit) : Reader (List α) :=
  separated r separator <|> pure []

/-- Reads a value and gives the text that it took. -/
def taken {α : Type} (r : Reader α) : Reader (List Char) := fun cs => do
  let (_, rest) ← r cs
  return (cs.take (cs.length - rest.length), rest)

/-- The value of a text that is read to its end. -/
def readAll? {α : Type} (r : Reader α) (s : String) : Option α :=
  (StateT.run (do let a ← r; atEnd; return a) s.toList).map (·.1)

end Reader

end PhpRename
