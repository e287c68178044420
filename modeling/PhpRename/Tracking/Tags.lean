import PhpRename.Text.Blank
import PhpRename.Text.Occurrences
import PhpRename.Text.Split

/-!
# Tags of doc comments

The `@var`, `@param` and `@return` tags of a doc comment. A word ends at white space, and only
spaces and tabs may stand between the words of a tag.
-/

set_option autoImplicit false

namespace PhpRename.Tag

/-- A `@var` tag: its first word, and its second if there is one on the line. -/
structure Var where
  first : List Char
  second : Option (List Char)
  deriving DecidableEq, Repr

/-- A `@param` tag: the type and the variable. -/
structure Param where
  type : List Char
  name : List Char
  deriving DecidableEq, Repr

/-- Whether a character may stand between the words of a tag. -/
def isGap (c : Char) : Bool := c == ' ' || c == '\t'

/-- What follows at least one space or tab. -/
def gap? : List Char → Option (List Char)
  | [] => none
  | c :: rest => if isGap c then some (rest.dropWhile isGap) else none

/-- A gap and the word after it, with what follows. -/
def word? (cs : List Char) : Option (List Char × List Char) := do
  let rest ← gap? cs
  let word := rest.takeWhile (!Blank.isBlank ·)
  if word.isEmpty then none else some (word, rest.dropWhile (!Blank.isBlank ·))

/-- A word without the comment end that may be stuck to it. -/
def clean (word : List Char) : List Char := (dropEnds word.reverse).reverse
where
  /-- Drops every leading `/*` of a reversed word. -/
  dropEnds : List Char → List Char
    | '/' :: '*' :: rest => dropEnds rest
    | cs => cs

/-- Reads a `@var` tag at the start of a text. -/
def readVar (cs : List Char) : Option (Var × Nat) := do
  let rest ← Text.after? "@var".toList cs
  let (first, rest) ← word? rest
  match word? rest with
  | some (second, rest) => some (⟨clean first, some (clean second)⟩, cs.length - rest.length)
  | none => some (⟨clean first, none⟩, cs.length - rest.length)

/-- A variable at the start of a text: a dollar sign and an ASCII name. -/
def dollarName? : List Char → Option (List Char)
  | '$' :: c :: rest =>
    if c.isAlpha || c == '_' then
      some ('$' :: c :: rest.takeWhile fun d => d.isAlphanum || d == '_')
    else none
  | _ => none

/-- Drops a text from the start of another where it stands there. -/
def dropOptional (part cs : List Char) : List Char := (Text.after? part cs).getD cs

/-- Reads a `@param` tag at the start of a text; marks for references and variadics may precede the
variable. -/
def readParam (cs : List Char) : Option (Param × Nat) := do
  let rest ← Text.after? "@param".toList cs
  let (type, rest) ← word? rest
  let rest ← gap? rest
  let rest := dropOptional "...".toList (dropOptional "&".toList rest)
  let name ← dollarName? rest
  some (⟨clean type, name⟩, cs.length - rest.length + name.length)

/-- Reads a `@return` tag at the start of a text. -/
def readReturn (cs : List Char) : Option (List Char × Nat) := do
  let rest ← Text.after? "@return".toList cs
  let (type, rest) ← word? rest
  some (clean type, cs.length - rest.length)

/-- The `@var` tags of a comment. -/
def vars (comment : String) : List Var := Text.occurrences readVar comment.toList

/-- The `@param` tags of a comment. -/
def params (comment : String) : List Param := Text.occurrences readParam comment.toList

/-- The type of the first `@return` tag of a comment. -/
def return? (comment : String) : Option (List Char) := (Text.occurrences readReturn comment.toList).head?

end PhpRename.Tag
