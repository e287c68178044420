import PhpRename.Resolver.Basic
import PhpRename.Token.Expression

/-!
# Types of chains and expressions

A chain is resolved link by link: after each link the text so far is looked up and, when its type is
known, replaced by it; what is not known stays as written. An expression has a type when it is a
chain, a `new` or `clone` expression, or one of these in parentheses.
-/

set_option autoImplicit false

namespace PhpRename

namespace Tokens

/-- From `i` on, the first token that is no `@` or `&`, going no farther than `stop`. -/
def skipSigils? (ts : Tokens) (stop i : Nat) : Option Nat :=
  if ts.kindSatisfies (fun k => k == .atSign || k == .ampersand) i then
    match _h : ts.nextSignificant? i with
    | some next => if next ≤ stop then skipSigils? ts stop next else none
    | none => none
  else some i
termination_by ts.size - i
decreasing_by
  have := lt_of_nextSignificant? _h
  omega

/-- The token that decides what an expression is: the first one from `start` on that is neither
trivia nor a sigil. -/
def operand? (ts : Tokens) (start stop : Nat) : Option Nat :=
  if start < ts.size then
    let first := if ts.kindSatisfies (·.isTrivia) start then ts.nextSignificant? start else some start
    first.bind (ts.skipSigils? stop)
  else none

theorem le_of_skipSigils? {ts : Tokens} {stop i j : Nat} (h : ts.skipSigils? stop i = some j) :
    i ≤ j := by
  fun_induction skipSigils? ts stop i with
  | case1 i hk next hn hs ih =>
    have := lt_of_nextSignificant? hn
    have := ih h
    omega
  | case2 => simp at h
  | case3 => simp at h
  | case4 i hk =>
    obtain rfl : i = j := by simpa using h
    exact Nat.le_refl _

theorem le_of_operand? {ts : Tokens} {start stop j : Nat} (h : ts.operand? start stop = some j) :
    start ≤ j := by
  unfold operand? at h
  split at h
  · obtain ⟨first, hf, hs⟩ := Option.bind_eq_some_iff.1 h
    have := le_of_skipSigils? hs
    split at hf
    · have := lt_of_nextSignificant? hf
      omega
    · obtain rfl : start = first := by simpa using hf
      omega
  · simp at h

end Tokens

namespace Resolver

open TypeExpr

/-- What a walk along a chain has gathered, and whether it reached the end of its span. -/
structure Walk where
  text : String
  complete : Bool
  deriving DecidableEq, Repr

/-- The span of a walk: the token that look-ups start from, the last token, and whether the last
significant token is looked up, too. -/
structure Span where
  start : Nat
  stop : Nat
  resolveLast : Bool
  deriving DecidableEq, Repr

/-- The text with its type in its place, when that is known at a token. -/
def settle (r : Resolver) (index : Nat) (text : String) : String := (r.typeOf? index text).getD text

/-- The text that a name token adds to a chain. -/
def linkText (t : Token) (afterAccess : Bool) : String :=
  if afterAccess then String.ofList (t.text.toList.dropWhile (· == '$'))
  else if t.kind == .identifier then Name.short t.text
  else t.text

/-- A text with a call mark in front, unless it has one. -/
def markCall (text : String) : String :=
  if text.toList.head? == some callMark then text else marked text

mutual

/-- Walks along a chain from `index` with the text gathered so far. -/
def walk (r : Resolver) (span : Span) (index : Nat) (text : String) (afterAccess : Bool) : Walk :=
  if h : index ≤ span.stop ∧ index < r.tokens.size then
    let t := r.tokens[index]
    match t.kind with
    | .whitespace | .comment | .docComment => r.walk span (index + 1) text afterAccess
    | .arrow | .doubleColon => r.walk span (index + 1) (text ++ separator) true
    | .variableName | .identifier | .kwStatic =>
      let longer := text ++ linkText t afterAccess
      let looksUp := span.resolveLast || index != r.tokens.lastSignificant span.start span.stop
      r.walk span (index + 1) (if looksUp then r.settle span.start longer else longer) false
    | .openParen =>
      if text.isEmpty then
        match t.matching with
        | none => ⟨text, false⟩
        | some close =>
          match _hf : r.tokens.significantBetween? (index + 1) close with
          | none => ⟨text, false⟩
          | some first =>
            match (r.tokens.expressionEnd? first).bind fun last => r.expressionType? first last with
            | none => ⟨text, false⟩
            | some inner => r.walk span (max index close + 1) inner afterAccess
      else
        let called := r.settle span.start (markCall text)
        match t.matching with
        | none => ⟨called, false⟩
        | some close => r.walk span (max index close + 1) called afterAccess
    | .openBracket =>
      if text.isEmpty then ⟨text, false⟩
      else
        match t.matching with
        | none => ⟨text ++ "[]", false⟩
        | some close => r.walk span (max index close + 1) (text ++ "[]") afterAccess
    | _ => ⟨text, false⟩
  else ⟨text, true⟩
termination_by (r.tokens.size - index, 0)
decreasing_by
  all_goals first
    | exact Prod.Lex.left _ _ (by have after := Tokens.lt_of_significantBetween? _hf; omega)
    | exact Prod.Lex.left _ _ (by omega)

/-- The type of the expression from `start` to `stop`, both included. Literals, operators and bare
constants have none. -/
def expressionType? (r : Resolver) (start stop : Nat) : Option String :=
  match _ho : r.tokens.operand? start stop with
  | none => none
  | some first =>
    match r.tokens.kindAt? first with
    | some .kwNew => do
      let cls ← (r.tokens.nextSignificant? first).filter (· ≤ stop)
      if r.tokens.kindSatisfies (fun k => k == .identifier || k == .kwStatic) cls then
        some (Name.short (r.normalizeRoot cls (r.tokens.textAt cls)))
      else none
    | some .kwClone =>
      match _hn : r.tokens.nextSignificant? first with
      | some operand => if operand ≤ stop then r.expressionType? operand stop else none
      | none => none
    | some .variableName | some .identifier | some .kwStatic | some .openParen =>
      let found := r.walk ⟨first, min stop (r.tokens.size - 1), true⟩ first "" false
      let isConstant := r.tokens.isAt .identifier first &&
        (r.tokens.significantBetween? (first + 1) (stop + 1)).isNone
      if found.complete && !found.text.isEmpty && !isConstant then some found.text else none
    | _ => none
termination_by (r.tokens.size - start, 1)
decreasing_by
  · have := Tokens.le_of_operand? _ho
    have := Tokens.lt_of_nextSignificant? _hn
    exact Prod.Lex.left _ _ (by omega)
  · have := Tokens.le_of_operand? _ho
    rcases Nat.lt_or_ge (r.tokens.size - first) (r.tokens.size - start) with h | h
    · exact Prod.Lex.left _ _ h
    · have : r.tokens.size - first = r.tokens.size - start := by omega
      rw [this]
      exact Prod.Lex.right _ (by omega)

end

/-- Walks along the chain from `start` to `stop`, both included. -/
def walkChain (r : Resolver) (start stop : Nat) (resolveLast : Bool) : Walk :=
  r.walk ⟨start, min stop (r.tokens.size - 1), resolveLast⟩ start "" false

/-- The type of the chain from `start` to `stop` as far as it is known; the rest stays as
written. -/
def chainType (r : Resolver) (start stop : Nat) : String := (r.walkChain start stop true).text

/-- The name that an assignment to the chain from `start` to `stop` binds: its last link is not
looked up. -/
def targetName (r : Resolver) (start stop : Nat) : String := (r.walkChain start stop false).text

/-- The type that the `=` at `equal` assigns, through at most `n` chained assignments. -/
def assignedWithin (r : Resolver) : Nat → Nat → Option String
  | 0, _ => none
  | n + 1, equal => do
    let equal ← r.tokens.inRange? equal
    let start ← r.tokens.nextSignificant? equal
    let stop ← r.tokens.expressionEnd? start
    match (r.tokens.nextSignificant? stop).filter (r.tokens.isAt .equal) with
    | some next => r.assignedWithin n next
    | none => r.expressionType? start stop

/-- The type that the `=` at `equal` assigns. -/
def assignedType? (r : Resolver) (equal : Nat) : Option String := r.assignedWithin maxDepth equal

/-- The type of the receiver whose last token is `last`. -/
def receiverType? (r : Resolver) (last : Nat) : Option String :=
  r.expressionType? (r.tokens.chainStart last) last

end Resolver

end PhpRename
