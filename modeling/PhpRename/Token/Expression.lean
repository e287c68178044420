import PhpRename.Token.Cursor

/-!
# Chains and expressions in tokens

Where a chain of member accesses begins, going back from its last token, and where an expression
ends, going forward from its first. Both step over bracketed groups as units.
-/

set_option autoImplicit false

namespace PhpRename

/-- Kinds that may end an operand of a member access. -/
def TokenKind.endsOperand : TokenKind → Bool
  | variableName | identifier | kwStatic | closeParen | closeBracket => true
  | _ => false

/-- Kinds that end an expression at its own nesting level. -/
def TokenKind.endsExpression : TokenKind → Bool
  | semicolon | comma | equal | closeParen | closeBracket | closeBrace | closeTag => true
  | _ => false

namespace Tokens

/-- The index of the first token of the member-access chain that ends at `last`: back over access
operators, argument lists and array indexes. -/
def chainStart (ts : Tokens) (last : Nat) : Nat :=
  let operand := min (ts.groupStart last) last
  match _hp : ts.prevSignificant? operand with
  | none => operand
  | some prev =>
    if operand ≠ last then
      if ts.kindSatisfies (·.endsOperand) prev then chainStart ts prev else operand
    else if ts.kindSatisfies (·.endsOperand) operand && ts.kindSatisfies (·.isAccess) prev then
      match _hb : ts.prevSignificant? prev with
      | some before => chainStart ts before
      | none => operand
    else operand
termination_by last
decreasing_by
  · have := lt_of_prevSignificant? _hp
    omega
  · have := lt_of_prevSignificant? _hp
    have := lt_of_prevSignificant? _hb
    omega

/-- The index of the last significant token of the expression that starts at `start`; none when a
token that ends expressions stands there. -/
def expressionEnd? (ts : Tokens) (start : Nat) : Option Nat :=
  if h : start < ts.size then
    if ts[start].kind.endsExpression then none
    else
      let last := max (ts.groupEnd start) start
      match _hn : ts.nextSignificant? last with
      | some next => some ((expressionEnd? ts next).getD last)
      | none => some last
  else none
termination_by ts.size - start
decreasing_by
  have := lt_of_nextSignificant? _hn
  omega

/-- The index of the first significant token from `i` on and before `stop`. -/
def significantBetween? (ts : Tokens) (i stop : Nat) : Option Nat :=
  (ts.findFrom? (!·.isTrivia) (fun _ => false) i).filter (· < stop)

/-- The index of the last significant token from `start` to `stop`, both included; `start` when
there is none. -/
def lastSignificant (ts : Tokens) (start stop : Nat) : Nat :=
  ((ts.findBefore? (!·.isTrivia) (stop + 1)).filter (start ≤ ·)).getD start

theorem lt_of_significantBetween? {ts : Tokens} {i stop j : Nat}
    (h : ts.significantBetween? i stop = some j) : i ≤ j ∧ j < ts.size ∧ j < stop := by
  simp only [significantBetween?, Option.filter_eq_some_iff] at h
  have := findFrom?_spec _ _ _ _ _ h.1
  have hs : j < stop := by simpa using h.2
  omega

end Tokens

end PhpRename
