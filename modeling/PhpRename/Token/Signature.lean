import PhpRename.Token.Expression

/-!
# Function signatures

The parameters of a function, its name and its declared return type, read from the tokens. A
parameter list is read in one go: what is known of the parameter at hand is kept in a `Listing`, and a
comma outside of groups ends it.
-/

set_option autoImplicit false

namespace PhpRename

/-- A parameter of a function. -/
structure Parameter where
  /-- The index of its variable. -/
  variableIndex : Nat
  /-- The declared type as written, empty when there is none. -/
  declared : String
  /-- The index of the modifier that makes it a property, too. -/
  promoted : Option Nat
  deriving DecidableEq, Repr

namespace Signature

/-- The parentheses of the parameter list of the function at `i`. -/
def bounds? (ts : Tokens) (i : Nat) : Option (Nat × Nat) := do
  let i ← ts.inRange? i
  let opening ← ts.findFrom? (· == .openParen) (fun k => k == .openBrace || k == .semicolon) i
  let closing ← ts.matching? opening
  some (opening, closing)

/-- Kinds that spell a declared type. -/
def spellsType : TokenKind → Bool
  | .identifier | .kwStatic | .question | .pipe => true
  | _ => false

/-- Kinds that make a parameter a property. -/
def promotes : TokenKind → Bool
  | .kwPublic | .kwProtected | .kwPrivate | .kwReadonly => true
  | _ => false

/-- How far a parameter list has been read. -/
structure Listing where
  /-- The parameters in front of the last comma. -/
  parameters : List Parameter := []
  /-- The index of the variable behind it, once it is found. -/
  found : Option Nat := none
  /-- The declared type so far. -/
  declared : String := ""
  /-- The index of the first modifier so far. -/
  promoted : Option Nat := none
  deriving DecidableEq, Repr

namespace Listing

/-- The parameters with the one at hand, which needs a variable. -/
def finished (l : Listing) : List Parameter :=
  match l.found with
  | some v => l.parameters ++ [⟨v, l.declared, l.promoted⟩]
  | none => l.parameters

/-- Reads one more token. Behind the variable of a parameter, only a comma counts. -/
def next (l : Listing) (i : Nat) (t : Token) : Listing :=
  if t.kind == .comma then { parameters := l.finished }
  else if l.found.isSome then l
  else if t.kind == .variableName then { l with found := some i }
  else if promotes t.kind then { l with promoted := l.promoted.or (some i) }
  else if spellsType t.kind then { l with declared := l.declared ++ t.text }
  else l

/-- Reads the tokens from `i` on and before `stop`. Attributes and default values are linked bracket groups, which
are passed over as units; an unlinked opener is passed over alone. -/
def run (l : Listing) (ts : Tokens) (i stop : Nat) : Listing :=
  if h : i < stop ∧ i < ts.size then
    let t := ts[i]
    if t.kind.isOpener then run l ts (max i (t.matching.getD i) + 1) stop
    else run (l.next i t) ts (i + 1) stop
  else l
termination_by ts.size - i

end Listing

/-- The parameters between two parentheses. -/
def parameters (ts : Tokens) (opening closing : Nat) : List Parameter :=
  (Listing.run {} ts (opening + 1) closing).finished

/-- The index of the name of the function at `i`; none for a closure. -/
def nameIndex? (ts : Tokens) (i : Nat) : Option Nat := ts.declaredNameIndex? i

/-- The declared return type after the parameter list that closes at `i`. -/
def returnType? (ts : Tokens) (i : Nat) : Option String :=
  ((ts.nextSignificant? i).filter (ts.isAt .colon)).bind fun colon =>
    let declared := String.join ((ts.significantWhile spellsType (colon + 1)).map fun t => t.2.text)
    if declared.isEmpty then none else some declared

end Signature

end PhpRename
