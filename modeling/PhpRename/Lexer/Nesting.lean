import PhpRename.Token.Basic

/-!
# Bracket nesting and scope ownership

The state that a sweep over the tokens carries to link brackets and scopes. A closer is linked to
the nearest open bracket of its shape, and whatever stands open above that bracket is dropped as
unbalanced; a closer without such a bracket stays unlinked.

A scope owner stays pending until the next opening brace at its own bracket depth, which opens its scope,
or a `;` at that depth, which abandons it.
-/

set_option autoImplicit false

namespace PhpRename.Lexer

/-- A bracket that stands open, with the owner of the scope that it opens. -/
structure Opened where
  index : Nat
  kind : TokenKind
  owner : Option ScopeOwner := none
  deriving DecidableEq, Repr

/-- A scope owner that waits for its brace, and the number of brackets open around it. -/
structure Pending where
  owner : ScopeOwner
  depth : Nat
  deriving DecidableEq, Repr

/-- Open brackets and pending owners, innermost first, and the links made so far. -/
structure Nesting where
  opened : List Opened := []
  pending : List Pending := []
  /-- Linked brackets, as opener and closer. -/
  pairs : List (Nat × Nat) := []
  /-- Scope owners with the brace that opens their scope. -/
  bodies : List (Nat × Nat) := []
  deriving DecidableEq, Repr

namespace Nesting

/-- The number of open brackets. -/
def depth (n : Nesting) : Nat := n.opened.length

/-- The owners of the open scopes, outermost first. -/
def scopes (n : Nesting) : List ScopeOwner := (n.opened.filterMap (·.owner)).reverse

/-- The pending owner at the present depth. -/
def waiting? (n : Nesting) : Option ScopeOwner :=
  match n.pending with
  | p :: _ => if p.depth == n.depth then some p.owner else none
  | [] => none

/-- The pending owners without the one at the present depth. -/
def abandoned (n : Nesting) : List Pending :=
  if n.waiting?.isSome then n.pending.tail else n.pending

/-- A scope owner starts to wait, in place of one that waits at the same depth. -/
def await (n : Nesting) (owner : ScopeOwner) : Nesting :=
  { n with pending := ⟨owner, n.depth⟩ :: n.abandoned }

/-- The owner that waits at the present depth gives up. -/
def abandon (n : Nesting) : Nesting := { n with pending := n.abandoned }

/-- A parenthesis or square bracket opens. -/
def openGroup (n : Nesting) (index : Nat) (kind : TokenKind) : Nesting :=
  { n with opened := ⟨index, kind, none⟩ :: n.opened }

/-- A brace opens, and with it the scope of the owner that waits at this depth. -/
def openBody (n : Nesting) (index : Nat) : Nesting :=
  { n with
    opened := ⟨index, .openBrace, n.waiting?⟩ :: n.opened
    pending := n.abandoned
    bodies := (n.waiting?.map fun o => (o.index, index)).toList ++ n.bodies }

/-- A closer meets the nearest open bracket of its shape; owners that wait inside the closed group
give up. -/
def close (n : Nesting) (index : Nat) (shape : TokenKind) : Nesting :=
  match n.opened.dropWhile (·.kind != shape) with
  | [] => n
  | b :: outer =>
    { n with
      opened := outer
      pending := n.pending.dropWhile (fun p => outer.length < p.depth)
      pairs := (b.index, index) :: n.pairs }

/-- The nesting after the token at `index`. -/
def step (n : Nesting) (index : Nat) (kind : TokenKind) : Nesting :=
  match kind.scopeKind? with
  | some scope => n.await ⟨index, scope⟩
  | none =>
    match kind.opener? with
    | some shape => n.close index shape
    | none =>
      match kind with
      | .semicolon => n.abandon
      | .openBrace => n.openBody index
      | .openParen | .openBracket => n.openGroup index kind
      | _ => n

/-- The scopes around a token, given the nesting before it: a closing brace stands outside the
scope that it ends. -/
def scopesAt (n : Nesting) (index : Nat) (kind : TokenKind) : List ScopeOwner :=
  if kind == .closeBrace then (n.step index kind).scopes else n.scopes

/-- The links of brackets, in both directions. -/
def links (n : Nesting) : List (Nat × Nat) := n.pairs.flatMap fun p => [p, p.swap]

/-- The bracket that a bracket is linked to. -/
def partner? (n : Nesting) (index : Nat) : Option Nat := n.links.lookup index

/-- The brace that opens the scope of an owner. -/
def body? (n : Nesting) (index : Nat) : Option Nat := n.bodies.lookup index

end Nesting

end PhpRename.Lexer
