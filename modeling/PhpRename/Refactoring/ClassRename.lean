import PhpRename.Edit.Basic
import PhpRename.Name.Basic
import PhpRename.Refactoring.WholeWord
import PhpRename.Token.Cursor

/-!
# Renaming a class

References in code are edited with high confidence, mentions as a whole word in strings and
comments with low confidence. Members, functions, constants and namespaces of the same name are
left alone.
-/

set_option autoImplicit false

namespace PhpRename.ClassRename

/-- Whether the name after a token of this kind is no class name. -/
def precedesOther : TokenKind → Bool
  | .kwFunction | .kwConst | .kwNamespace => true
  | kind => kind.isAccess

/-- Whether the identifier at `i` refers to a class: no member or function, and no function call. -/
def refersToClass (ts : Tokens) (i : Nat) : Bool :=
  let previous := ts.prevSignificant? i
  !previous.any (ts.kindSatisfies precedesOther) &&
    (previous.any (ts.isAt .kwNew) || !(ts.nextSignificant? i).any (ts.isAt .openParen))

/-- The edit of a class reference: the last segment of its name. -/
def editName (new : String) (t : Token) (old : String) : Edit :=
  let length := (Utf8.encode old).length
  ⟨t.position.line, t.position.column + (t.byteSize - length), length, new, .high⟩

/-- The edits of the mentions in a text. -/
def editMentions (old new : String) (t : Token) : List Edit :=
  (WholeWord.offsets old t.text).map fun offset =>
    let p := t.positionOf offset
    ⟨p.line, p.column, (Utf8.encode old).length, new, .low⟩

/-- The edits for the token at `i`. -/
def edits (old new : String) (ts : Tokens) (i : Nat) : List Edit :=
  match ts[i]? with
  | none => []
  | some t =>
    match t.kind with
    | .identifier =>
      if Name.short t.text == old && refersToClass ts i then [editName new t old] else []
    | .stringLit | .heredoc | .comment | .docComment => editMentions old new t
    | _ => []

end PhpRename.ClassRename
