import PhpRename.Text.Utf8
import PhpRename.Token.Kind

/-!
# Tokens

A token carries what type resolution and renaming need without reading the source again: its kind
and text, where it starts, the scope owners around it, and the links between matching brackets and
from a scope owner to its opening brace.
-/

set_option autoImplicit false

namespace PhpRename

/-- A place in a source: line and byte column, both counted from 1. Sources stay below 2^32 lines and
bytes per line, so that 32 bits hold either number. -/
structure Position where
  line : Nat
  column : Nat
  deriving DecidableEq, Repr

namespace Position

/-- The place of the first byte of a source. -/
def start : Position := ⟨1, 1⟩

/-- The place after one byte. -/
def step (p : Position) (b : UInt8) : Position :=
  if b == 0x0a then ⟨p.line + 1, 1⟩ else ⟨p.line, p.column + 1⟩

/-- The place after a stretch of bytes. -/
def after (p : Position) (bs : Bytes) : Position := bs.foldl step p

theorem after_append (p : Position) (xs ys : Bytes) : p.after (xs ++ ys) = (p.after xs).after ys := by
  simp [after]

end Position

/-- A construct that owns a scope: the index of its keyword token and its kind. -/
structure ScopeOwner where
  index : Nat
  kind : ScopeKind
  deriving DecidableEq, Repr

/-- A token of a source. -/
structure Token where
  kind : TokenKind
  /-- The source text, with ill-formed bytes replaced by U+FFFD. -/
  text : String
  position : Position
  /-- The owners of the scopes around the token, outermost first. -/
  conditions : List ScopeOwner := []
  /-- The index of the matching bracket, for bracket tokens. -/
  matching : Option Nat := none
  /-- The index of the opening brace, for scope owners. -/
  scopeOpener : Option Nat := none
  deriving DecidableEq, Repr

namespace Token

/-- The innermost scope owner that can hold bindings. -/
def bindingOwner? (t : Token) : Option ScopeOwner :=
  t.conditions.reverse.find? (·.kind.isBinding)

/-- The index of the innermost class-like scope owner, looking through functions. -/
def classOwner? (t : Token) : Option Nat :=
  (t.conditions.reverse.find? (·.kind.isClassLike)).map (·.index)

/-- Whether the token sits directly in a class body rather than in a method. -/
def atClassLevel (t : Token) : Bool := t.bindingOwner?.any (·.kind.isClassLike)

/-- The number of bytes of the token's text. -/
def byteSize (t : Token) : Nat := (Utf8.encode t.text).length

/-- The place of the byte at `offset` in the token's text. Past the end the column goes on
counting. -/
def positionOf (t : Token) (offset : Nat) : Position :=
  let bytes := Utf8.encode t.text
  let p := t.position.after (bytes.take offset)
  ⟨p.line, p.column + (offset - bytes.length)⟩

end Token

/-- The tokens of a source, in order. -/
abbrev Tokens := Array Token

end PhpRename
