import PhpRename.Proofs.Tracking.Frame
import PhpRename.Proofs.Tracking.Straight

/-!
# What an assignment teaches

At the top level names stand for themselves, and the `=` of an assignment of a new instance binds
the variable to the class; no other token of a straight-line program teaches anything.
-/

set_option autoImplicit false

namespace PhpRename

/-! ## Names at the top level -/

namespace Resolver

variable {r : Resolver} (flat : r.tokens.Flat)
include flat

theorem bindingOwner?_of_flat (index : Nat) : r.tokens[index]?.bind (·.bindingOwner?) = none := by
  cases ht : r.tokens[index]? with
  | none => rfl
  | some t =>
    rw [Option.bind_some, Token.bindingOwner?, flat.topLevel index t ht]
    rfl

theorem enclosingClass?_of_flat (index : Nat) : r.enclosingClass? index = none := by
  have noOwner : r.tokens[index]?.bind (·.classOwner?) = none := by
    cases ht : r.tokens[index]? with
    | none => rfl
    | some t =>
      rw [Option.bind_some, Token.classOwner?, flat.topLevel index t ht]
      rfl
  rw [enclosingClass?, noOwner]
  rfl

theorem normalizeRoot_of_flat (index : Nat) (name : String) : r.normalizeRoot index name = name := by
  have noSelf : r.selfClass? index (TypeExpr.rootOf name) = none := by
    rw [selfClass?, enclosingClass?_of_flat flat]
    split <;> rfl
  unfold normalizeRoot
  rw [noSelf]

theorem scopeOf_of_flat (index : Nat) (name : String) : r.scopeOf index name = globalScope := by
  rw [scopeOf, bindingOwner?_of_flat flat]
  split <;> rfl

theorem keyFor_of_flat (index : Nat) (name : String) : r.keyFor index name none = (name, globalScope) := by
  have noMember : r.memberOf? index none = none := by
    rw [memberOf?, bindingOwner?_of_flat flat]
    rfl
  rw [keyFor, noMember, normalizeRoot_of_flat flat]
  simp only [scopeOf_of_flat flat, Option.getD_none, ite_self]

/-- At the top level a name is bound as it is, in the global scope. -/
theorem bindName_of_flat (index : Nat) (type name : String) : r.bindName index type name none =
    if name == type || r.keeps index type then r
    else { r with bindings := r.bindings.record ⟨r.file, globalScope, name, type, index⟩ } := by
  rw [bindName, keyFor_of_flat flat]

end Resolver

/-! ## The assignment of a new instance -/

/-- Nothing that an assignment from here on may belong to stands before a token. -/
structure Tokens.Starts (ts : Tokens) (k : Nat) : Prop where
  noParen : ts.enclosingParen? k = none
  noAccess : ∀ prev, ts.prevSignificant? k = some prev → ts.kindSatisfies (·.isAccess) prev = false

namespace Assignment

variable {ts : Tokens} {k : Nat} {target cls : String}

section

variable (reads : ts.ReadsAt k (Statement.assign target cls).written)
include reads

theorem target_eq : Tracking.assignmentTarget? ts (k + 3) = some (k + 1) := by
  have prev : ts.prevSignificant? (k + 3) = some (k + 1) :=
    (Tokens.prevSignificant?_past (reads.kindAt? (i := 2) rfl) rfl).trans
      (Tokens.prevSignificant?_here (reads.kindAt? (i := 1) rfl) rfl)
  have isVariable : ts.isAt .variableName (k + 1) = true := Tokens.isAt_eq (reads.kindAt? (i := 1) rfl) _
  rw [Tracking.assignmentTarget?, prev, Option.filter_some, isVariable, Bool.true_or, if_pos rfl]

theorem expressionEnd?_eq (linked : ts.matching? (k + 8) = some (k + 9)) :
    ts.expressionEnd? (k + 5) = some (k + 9) := by
  have last : ts.groupEnd (k + 8) = k + 9 := Tokens.groupEnd_of_matching? (reads.kindAt? (i := 8) rfl) rfl linked
  have name : ts.groupEnd (k + 7) = k + 7 := Tokens.groupEnd_of_noOpener (reads.kindAt? (i := 7) rfl) rfl
  have new : ts.groupEnd (k + 5) = k + 5 := Tokens.groupEnd_of_noOpener (reads.kindAt? (i := 5) rfl) rfl
  have arguments : ts.expressionEnd? (k + 8) = some (k + 9) := by
    have ends : ts.expressionEnd? (k + 10) = none := Tokens.expressionEnd?_of_ends (reads.kindAt? (i := 10) rfl) rfl
    have step : ts.stepForward? (k + 8) = some (k + 10) := by
      rw [Tokens.stepForward?, last]
      exact Tokens.nextSignificant?_here (reads.kindAt? (i := 10) rfl) rfl
    rw [Tokens.expressionEnd?_step (reads.kindAt? (i := 8) rfl) rfl (by omega) step, ends, last, Option.getD_none]
  have called : ts.expressionEnd? (k + 7) = some (k + 9) := by
    have step : ts.stepForward? (k + 7) = some (k + 8) := by
      rw [Tokens.stepForward?, name]
      exact Tokens.nextSignificant?_here (reads.kindAt? (i := 8) rfl) rfl
    rw [Tokens.expressionEnd?_step (reads.kindAt? (i := 7) rfl) rfl (by omega) step, arguments, Option.getD_some]
  have step : ts.stepForward? (k + 5) = some (k + 7) := by
    rw [Tokens.stepForward?, new]
    exact (Tokens.nextSignificant?_past (reads.kindAt? (i := 6) rfl) rfl).trans
      (Tokens.nextSignificant?_here (reads.kindAt? (i := 7) rfl) rfl)
  rw [Tokens.expressionEnd?_step (reads.kindAt? (i := 5) rfl) rfl (by omega) step, called, Option.getD_some]

theorem isDefaultValue_eq (starts : ts.Starts k) : Tracking.isDefaultValue ts (k + 3) = false := by
  have step {j : Nat} {kind : TokenKind} (h : ts.kindAt? j = some kind)
      (other : (kind == .openParen || kind == .semicolon || kind == .openBrace || kind.isCloser) = false) :
      ts.enclosingParen? (j + 1) = ts.enclosingParen? j := by
    simp only [Bool.or_eq_false_iff] at other
    rw [Tokens.enclosingParen?, Tokens.isAt_eq h, Tokens.isAt_eq h, Tokens.isAt_eq h, other.1.1.1, other.1.1.2,
      other.1.2, Tokens.groupStart_of_noCloser h other.2, Nat.min_self]
    rfl
  have none : ts.enclosingParen? (k + 3) = none := by
    rw [step (reads.kindAt? (i := 2) rfl) rfl, step (reads.kindAt? (i := 1) rfl) rfl,
      step (reads.kindAt? (i := 0) rfl) rfl]
    exact starts.noParen
  rw [Tracking.isDefaultValue, none, Option.any_none]

theorem chainStart_eq (starts : ts.Starts k) : ts.chainStart (k + 1) = k + 1 := by
  have single : ts.groupStart (k + 1) = k + 1 := Tokens.groupStart_of_noCloser (reads.kindAt? (i := 1) rfl) rfl
  have prev : ts.prevSignificant? (k + 1) = ts.prevSignificant? k :=
    Tokens.prevSignificant?_past (reads.kindAt? (i := 0) rfl) rfl
  rw [Tokens.chainStart]
  simp only [single, Nat.min_self]
  split
  · rfl
  · rename_i before found
    rw [single, Nat.min_self, prev] at found
    rw [if_neg (fun ne => ne rfl), starts.noAccess before found, Bool.and_false, if_neg Bool.false_ne_true]

end

section

variable {r : Resolver} (flat : r.tokens.Flat) (reads : r.tokens.ReadsAt k (Statement.assign target cls).written)
include flat reads

theorem expressionType?_eq (plain : Name.short cls = cls) : r.expressionType? (k + 5) (k + 9) = some cls := by
  have kind : r.tokens.kindAt? (k + 5) = some .kwNew := reads.kindAt? (i := 5) rfl
  have lt : k + 5 < r.tokens.size := (Tokens.kindAt?_eq_some_iff.1 kind).1
  have operand : r.tokens.operand? (k + 5) (k + 9) = some (k + 5) := by
    rw [Tokens.operand?, if_pos lt, Tokens.kindSatisfies_eq kind, if_neg (by decide), Option.bind_some,
      Tokens.skipSigils?, Tokens.kindSatisfies_eq kind, if_neg (by decide)]
  have name : r.tokens.nextSignificant? (k + 5) = some (k + 7) :=
    (Tokens.nextSignificant?_past (reads.kindAt? (i := 6) rfl) rfl).trans
      (Tokens.nextSignificant?_here (reads.kindAt? (i := 7) rfl) rfl)
  have near : (some (k + 7)).filter (· ≤ k + 9) = some (k + 7) := Option.filter_some_pos (by simp)
  have identifier := Tokens.kindSatisfies_eq (reads.kindAt? (i := 7) rfl)
  have text : r.tokens.textAt (k + 7) = cls := reads.textAt (i := 7) rfl
  rw [Resolver.expressionType?]
  split
  · rename_i missing
    rw [operand] at missing
    cases missing
  · rename_i first found
    rw [operand] at found
    obtain rfl := Option.some.inj found
    rw [kind]
    simp only [name, near, Option.bind_eq_bind, Option.bind_some, identifier, text, Resolver.normalizeRoot_of_flat flat,
      plain]
    rfl

theorem assignedType?_eq (plain : Name.short cls = cls) : r.assignedType? (k + 3) = some cls := by
  have lt : k + 3 < r.tokens.size := (Tokens.kindAt?_eq_some_iff.1 (reads.kindAt? (i := 3) rfl)).1
  have start : r.tokens.nextSignificant? (k + 3) = some (k + 5) :=
    (Tokens.nextSignificant?_past (reads.kindAt? (i := 4) rfl) rfl).trans
      (Tokens.nextSignificant?_here (reads.kindAt? (i := 5) rfl) rfl)
  have stop : r.tokens.expressionEnd? (k + 5) = some (k + 9) :=
    expressionEnd?_eq reads (flat.linked (k + 8) (reads.kindAt? (i := 8) rfl) (reads.kindAt? (i := 9) rfl))
  have behind : r.tokens.nextSignificant? (k + 9) = some (k + 10) :=
    Tokens.nextSignificant?_here (reads.kindAt? (i := 10) rfl) rfl
  have last : (some (k + 10)).filter (r.tokens.isAt .equal) = none :=
    Option.filter_some_neg (by rw [Tokens.isAt_eq (reads.kindAt? (i := 10) rfl)]; decide)
  rw [Resolver.assignedType?, Resolver.maxDepth, Resolver.assignedWithin, Tokens.inRange?, if_pos lt]
  simp only [Option.bind_eq_bind, Option.bind_some, start, stop, behind, last]
  exact expressionType?_eq flat reads plain

end

section

variable {r : Resolver} (reads : r.tokens.ReadsAt k (Statement.assign target cls).written)
include reads

theorem targetName_eq : r.targetName (k + 1) (k + 1) = "$" ++ target := by
  obtain ⟨t, ht, kind, text⟩ := reads 1 _ _ rfl
  obtain ⟨lt, rfl⟩ := Array.getElem?_eq_some_iff.1 ht
  have stop : min (k + 1) (r.tokens.size - 1) = k + 1 := by omega
  have last : r.tokens.lastSignificant (k + 1) (k + 1) = k + 1 := by
    have found : r.tokens.findBefore? (!·.isTrivia) (k + 1 + 1) = some (k + 1) :=
      Tokens.prevSignificant?_here (reads.kindAt? (i := 1) rfl) rfl
    rw [Tokens.lastSignificant, found, Option.filter_some, if_pos (by simp), Option.getD_some]
  rw [Resolver.targetName, Resolver.walkChain, stop, Resolver.walk, dif_pos ⟨Nat.le_refl _, lt⟩]
  simp only [kind, last, bne_self_eq_false, Bool.or_self, Bool.false_eq_true, if_false, Resolver.linkText, text]
  rw [Resolver.walk, dif_neg fun within => Nat.not_succ_le_self _ within.1]
  exact String.empty_append

/-- The `=` of an assignment binds the variable to the class. -/
theorem assignment_eq (flat : r.tokens.Flat) (starts : r.tokens.Starts k) (plain : Name.short cls = cls)
    (noIndex : Text.holds "[]".toList ("$" ++ target).toList = false) :
    Tracking.assignment r (k + 3) = r.bindName (k + 1) cls ("$" ++ target) none := by
  have filled : ("$" ++ target).isEmpty = false := by simp
  rw [Tracking.assignment, target_eq reads]
  simp only [isDefaultValue_eq reads starts, Bool.false_eq_true, if_false, assignedType?_eq flat reads plain,
    chainStart_eq reads starts, targetName_eq reads, filled, noIndex, Bool.or_self]

end

end Assignment

/-! ## Starts of statements -/

namespace Tokens.Starts

variable {ts : Tokens} {k : Nat}

theorem of_semicolon (h : ts.kindAt? k = some .semicolon) : ts.Starts (k + 1) := by
  constructor
  case noParen =>
    rw [enclosingParen?, isAt_eq h, isAt_eq h, if_neg (by decide), beq_self_eq_true, Bool.true_or, if_pos rfl]
  case noAccess =>
    intro prev found
    rw [prevSignificant?_here h rfl] at found
    rw [← Option.some.inj found, kindSatisfies_eq h]
    rfl

theorem of_openTag (h : ts.kindAt? 0 = some .openTag) : ts.Starts 1 := by
  constructor
  case noParen =>
    rw [enclosingParen?, isAt_eq h, isAt_eq h, isAt_eq h, if_neg (by decide), if_neg (by decide),
      groupStart_of_noCloser h rfl, Nat.min_self, enclosingParen?]
  case noAccess =>
    intro prev found
    rw [prevSignificant?_here h rfl] at found
    rw [← Option.some.inj found, kindSatisfies_eq h]
    rfl

end Tokens.Starts

/-! ## What a statement teaches -/

theorem Text.holds_of_notMem {c : Char} {part cs : List Char} (h : c ∉ cs) : holds (c :: part) cs = false := by
  induction cs with
  | nil => rfl
  | cons d cs ih =>
    obtain ⟨first, rest⟩ := not_or.1 (mt List.mem_cons.2 h)
    rw [holds, List.isPrefixOf, beq_false_of_ne first, Bool.false_and, Bool.false_or]
    exact ih rest

namespace Tracking

theorem token_of_silent {r : Resolver} {i : Nat} {kind : TokenKind} (h : r.tokens.kindAt? i = some kind)
    (mem : kind ∈ Program.kinds) (other : kind ≠ .equal) : token r i = r := by
  rw [token, h]
  simp only [Program.kinds, List.mem_cons, List.not_mem_nil, or_false] at mem
  rcases mem with rfl | rfl | rfl | rfl | rfl | rfl | rfl | rfl | rfl | rfl <;> first | rfl | exact absurd rfl other

/-- Tokens of a program other than `=` teach nothing. -/
theorem foldl_token_of_silent {r : Resolver} {k : Nat} {written : List (TokenKind × String)}
    (reads : r.tokens.ReadsAt k written) (silent : ∀ p ∈ written, p.1 ∈ Program.kinds ∧ p.1 ≠ .equal) :
    (List.range' k written.length).foldl token r = r := by
  induction written generalizing k with
  | nil => rfl
  | cons p written ih =>
    obtain ⟨mem, other⟩ := silent p (List.mem_cons_self ..)
    have first : token r k = r := token_of_silent (reads.kindAt? (i := 0) rfl) mem other
    have split : r.tokens.ReadsAt k ([p] ++ written) := reads
    rw [List.length_cons, List.range'_succ, List.foldl_cons, first]
    exact ih split.right fun q mem => silent q (List.mem_cons_of_mem p mem)

end Tracking

namespace Statement

/-- What a statement teaches whose tokens start at an index. -/
def teach (r : Resolver) (k : Nat) : Statement → Resolver
  | assign target cls => r.bindName (k + 1) cls ("$" ++ target) none
  | call _ _ => r

/-- The tokens of a statement teach what the statement does. -/
theorem foldl_token {s : Statement} {r : Resolver} {k : Nat} (accepted : s.Accepted) (flat : r.tokens.Flat)
    (reads : r.tokens.ReadsAt k s.written) (starts : r.tokens.Starts k) :
    (List.range' k s.written.length).foldl Tracking.token r = s.teach r k := by
  cases s with
  | call receiver method =>
    exact Tracking.foldl_token_of_silent reads (by simp [written, Program.kinds])
  | assign target cls =>
    have targetLabel := Name.labelFault?_eq_none_iff.1 (fault?_of_accept accepted.1)
    have classLabel := Name.isLabel_of_classFault? (fault?_of_accept accepted.2)
    have noIndex : Text.holds "[]".toList ("$" ++ target).toList = false := by
      refine Text.holds_of_notMem (c := '[') ?_
      rw [String.toList_append, List.mem_append, not_or]
      exact ⟨by decide, targetLabel.notMem (by decide)⟩
    let front := (assign target cls).written.take 3
    let back := (assign target cls).written.drop 4
    let learned := r.bindName (k + 1) cls ("$" ++ target) none
    have split : r.tokens.ReadsAt k ((front ++ [(.equal, "=")]) ++ back) := reads
    have range : List.range' k (assign target cls).written.length =
        List.range' k front.length ++ (k + 3) :: List.range' (k + 4) back.length := rfl
    have before : (List.range' k front.length).foldl Tracking.token r = r :=
      Tracking.foldl_token_of_silent split.left.left (by simp [front, written, Program.kinds])
    have equal : Tracking.token r (k + 3) = learned := by
      rw [Tracking.token, reads.kindAt? (i := 3) rfl]
      exact Assignment.assignment_eq reads flat starts classLabel.short_eq noIndex
    have behind : (List.range' (k + 4) back.length).foldl Tracking.token learned = learned := by
      refine Tracking.foldl_token_of_silent ?_ (by simp [back, written, Program.kinds])
      rw [(r.bindName_learns ..).tokens]
      exact split.right
    rw [range, List.foldl_append, before, List.foldl_cons, equal, behind]
    rfl

end Statement

end PhpRename
