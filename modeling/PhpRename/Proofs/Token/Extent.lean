import PhpRename.Proofs.Token.Steps

/-!
# The extent of chains and expressions

A chain is looked for backwards from its last token and an expression forwards from its first, each over bracket
groups as units. So no group reaches into a chain from before it, and none reaches out of an expression; the tokens
that end expressions stand in groups inside of it, and one of them, or nothing, stands behind it (`tokenize_extents`).
-/

set_option autoImplicit false

namespace PhpRename

namespace TokenKind

variable (kind : TokenKind)

theorem isCloser_of_isOpener (opens : kind.isOpener = true) : kind.isCloser = false := by
  cases kind <;> first | rfl | cases opens

theorem endsOperand_of_isOpener (opens : kind.isOpener = true) : kind.endsOperand = false := by
  cases kind <;> first | rfl | cases opens

theorem isCloser_of_joins (joins : (kind.isTrivia || kind.isAccess) = true) : kind.isCloser = false := by
  cases kind <;> first | rfl | cases joins

theorem isOpener_of_isTrivia (silent : kind.isTrivia = true) : kind.isOpener = false := by
  cases kind <;> first | rfl | cases silent

theorem endsExpression_of_isTrivia (silent : kind.isTrivia = true) : kind.endsExpression = false := by
  cases kind <;> first | rfl | cases silent

end TokenKind

namespace Tokens

variable {ts : Tokens} {i j k start last : Nat}

/-! ## Extents -/

/-- The index stands in a linked group that lies between two indices. -/
def Sheltered (ts : Tokens) (start last k : Nat) : Prop :=
  ∃ opening closing, ts.Links opening closing ∧ start ≤ opening ∧ opening ≤ k ∧ k ≤ closing ∧ closing ≤ last

/-- What holds of the tokens of a chain: those behind its first one stand in groups of the chain, or are operands,
access operators or trivia. -/
structure ChainFrom (ts : Tokens) (start last : Nat) : Prop where
  order : start ≤ last
  closer (k opening : Nat) (low : start ≤ k) (high : k ≤ last) (closes : ts.kindSatisfies (·.isCloser) k = true)
    (linked : ts.Links k opening) : start ≤ opening
  part (k : Nat) (low : start < k) (high : k ≤ last) : ts.Sheltered start last k ∨
    ts.kindSatisfies (fun kind => kind.isTrivia || kind.isAccess || kind.endsOperand) k = true

/-- No group reaches out from between two indices, and the tokens there that end expressions stand in groups. -/
structure Whole (ts : Tokens) (start last : Nat) : Prop where
  order : start ≤ last
  opener (k closing : Nat) (low : start ≤ k) (high : k ≤ last) (opens : ts.kindSatisfies (·.isOpener) k = true)
    (linked : ts.Links k closing) : closing ≤ last
  ends (k : Nat) (low : start ≤ k) (high : k ≤ last) (terminates : ts.kindSatisfies (·.endsExpression) k = true) :
    ts.Sheltered start last k

/-- What holds of the tokens of an expression, and of the one behind it. -/
structure ExpressionTo (ts : Tokens) (start last : Nat) : Prop extends ts.Whole start last where
  bound : last < ts.size
  stops (next : Nat) (found : ts.nextSignificant? last = some next) : ts.kindSatisfies (·.endsExpression) next = true

theorem Sheltered.mono {start' last' : Nat} (h : ts.Sheltered start last k) (low : start' ≤ start)
    (high : last ≤ last') : ts.Sheltered start' last' k := by
  obtain ⟨opening, closing, linked, bounds⟩ := h
  exact ⟨opening, closing, linked, by omega⟩

theorem Links.unique (h : ts.Links i j) (h' : ts.Links i k) : j = k := by
  obtain ⟨t, found, linked⟩ := h
  obtain ⟨t', found', linked'⟩ := h'
  obtain rfl := Option.some.inj (found.symm.trans found')
  exact Option.some.inj (linked.symm.trans linked')

/-! ## Tokens between significant ones -/

theorem kindSatisfies_iff {test : TokenKind → Bool} :
    ts.kindSatisfies test i = true ↔ ∃ kind, ts.kindAt? i = some kind ∧ test kind = true := by
  rw [kindSatisfies, Option.any_eq_true]

theorem trivia_of_not_loud (bound : k < ts.size) (silent : ts.kindSatisfies (!·.isTrivia) k = false) :
    ts.kindSatisfies (·.isTrivia) k = true := by
  have kind : ts.kindAt? k = some ts[k].kind := kindAt?_eq_some_iff.2 ⟨bound, rfl⟩
  rw [kindSatisfies_eq kind] at silent ⊢
  rw [← Bool.not_eq_false', silent]

/-- Between a token and the significant one before it stands trivia. -/
theorem trivia_of_prevSignificant? (bound : i < ts.size) (found : ts.prevSignificant? i = some j) (low : j < k)
    (high : k < i) : ts.kindSatisfies (·.isTrivia) k = true :=
  trivia_of_not_loud (high.trans bound) ((findBefore?_eq_some_iff.1 found).2.2 k low high)

theorem trivia_of_nextSignificant? (found : ts.nextSignificant? i = some j) (low : i < k) (high : k < j) :
    ts.kindSatisfies (·.isTrivia) k = true :=
  trivia_of_not_loud (high.trans (lt_of_nextSignificant? found).2) ((findFrom?_eq_some_iff.1 found).2.2 k low high)

/-! ## Groups -/

theorem kindSatisfies_mono {test test' : TokenKind → Bool} (h : ts.kindSatisfies test i = true)
    (weaker : ∀ kind, test kind = true → test' kind = true) : ts.kindSatisfies test' i = true := by
  obtain ⟨kind, here, passes⟩ := kindSatisfies_iff.1 h
  exact kindSatisfies_iff.2 ⟨kind, here, weaker kind passes⟩

/-- A kind that one test accepts and another refuses. -/
theorem not_kindSatisfies {test test' : TokenKind → Bool} (h : ts.kindSatisfies test i = true)
    (other : ∀ kind, test kind = true → test' kind = false) : ¬ ts.kindSatisfies test' i = true := by
  obtain ⟨kind, here, passes⟩ := kindSatisfies_iff.1 h
  rw [kindSatisfies_eq here, other kind passes]
  exact Bool.false_ne_true

section

variable (nested : ts.WellNested)
include nested

theorem kinds_of_links (linked : ts.Links i j) (order : i < j) :
    ts.kindSatisfies (·.isOpener) i = true ∧ ts.kindSatisfies (·.isCloser) j = true := by
  obtain ⟨opener, closer, hi, hj, shape⟩ := nested.shape i j linked order
  rw [kindSatisfies_eq hi, kindSatisfies_eq hj]
  exact ⟨TokenKind.isOpener_of_opener? shape, (TokenKind.isCloser_iff_opener? closer).2 (by rw [shape]; rfl)⟩

/-- A token is no linked closer, or it ends a group, which starts at an opener. -/
theorem groupStart_cases (i : Nat) :
    (ts.groupStart i = i ∧ (ts.kindSatisfies (·.isCloser) i = true → ∀ opening, ¬ ts.Links i opening)) ∨
      (ts.groupStart i < i ∧ ts.Links (ts.groupStart i) i) := by
  rw [groupStart]
  split
  · rename_i closes
    cases partner : ts.matching? i with
    | none =>
      refine .inl ⟨rfl, fun _ opening linked => ?_⟩
      rw [nested.matching?_iff.2 linked] at partner
      cases partner
    | some opening =>
      obtain ⟨t, found, link⟩ := nested.matching?_iff.1 partner
      rw [kindSatisfies_of_getElem? found] at closes
      exact .inr ⟨nested.forward.closer i t opening found closes link, nested.symm _ _ ⟨t, found, link⟩⟩
  · rename_i other
    exact .inl ⟨rfl, fun closes => absurd closes other⟩

/-- A token is no linked opener, or it starts a group. -/
theorem groupEnd_cases (i : Nat) :
    (ts.groupEnd i = i ∧ (ts.kindSatisfies (·.isOpener) i = true → ∀ closing, ¬ ts.Links i closing)) ∨
      (i < ts.groupEnd i ∧ ts.Links i (ts.groupEnd i)) := by
  rw [groupEnd]
  split
  · rename_i opens
    cases partner : ts.matching? i with
    | none =>
      refine .inl ⟨rfl, fun _ closing linked => ?_⟩
      rw [nested.matching?_iff.2 linked] at partner
      cases partner
    | some closing =>
      obtain ⟨t, found, link⟩ := nested.matching?_iff.1 partner
      rw [kindSatisfies_of_getElem? found] at opens
      exact .inr ⟨(nested.forward.opener i t closing found opens link).1, t, found, link⟩
  · rename_i other
    exact .inl ⟨rfl, fun opens => absurd opens other⟩

/-- Going back over a group leads to its opener, and from there no further. -/
theorem groupStart_groupStart (i : Nat) : ts.groupStart (ts.groupStart i) = ts.groupStart i := by
  obtain ⟨same, -⟩ | ⟨less, linked⟩ := groupStart_cases nested i
  · rw [same, same]
  · have opens := (kinds_of_links nested linked less).1
    rw [groupStart, if_neg (not_kindSatisfies opens TokenKind.isCloser_of_isOpener)]

end

/-! ## Chains -/

/-- A chain goes no further back than an operand that nothing is accessed from, and it starts there. -/
theorem chainStart_of_ends (single : ts.groupStart i = i) (ends : ∀ prev, ts.prevSignificant? i = some prev →
    (ts.kindSatisfies (·.endsOperand) i && ts.kindSatisfies (·.isAccess) prev) = true →
      ts.prevSignificant? prev = none) : ts.chainStart i = i := by
  have back : min (ts.groupStart i) i = i := by rw [single, Nat.min_self]
  rw [chainStart, back]
  split
  · rfl
  · rename_i prev found
    rw [if_neg (not_not.2 rfl)]
    split
    · rename_i link
      split
      · rename_i before further
        rw [ends prev found link] at further
        cases further
      · rfl
    · rfl

/-- The operand that ends at one index continues a chain that ends at another one, over an access operator or, when it
is a group, as what the chain is called or indexed with. -/
structure Continues (ts : Tokens) (before last : Nat) : Prop where
  less : before < ts.groupStart last
  operand : ts.groupStart last = last → ts.kindSatisfies (·.endsOperand) last = true
  joins (k : Nat) (low : before < k) (high : k < ts.groupStart last) :
    ts.kindSatisfies (fun kind => kind.isTrivia || kind.isAccess) k = true

section

variable (nested : ts.WellNested)
include nested

/-- One step back along a chain: it starts at the operand, or where the chain that the operand continues does. -/
theorem chainStart_cases (bound : last < ts.size) :
    (ts.chainStart last = ts.groupStart last ∧ ts.chainStart (ts.groupStart last) = ts.groupStart last) ∨
      ∃ before, ts.Continues before last ∧ ts.chainStart last = ts.chainStart before := by
  have back : min (ts.groupStart last) last = ts.groupStart last :=
    Nat.min_eq_left (nested.forward.groupStart_le last)
  have alone := groupStart_groupStart nested last
  have bound : ts.groupStart last < ts.size := (nested.forward.groupStart_le last).trans_lt bound
  have trivia : ∀ k, ts.kindSatisfies (·.isTrivia) k = true →
      ts.kindSatisfies (fun kind => kind.isTrivia || kind.isAccess) k = true :=
    fun k silent => kindSatisfies_mono silent fun kind h => by rw [h, Bool.true_or]
  rw [chainStart, back]
  split
  · rename_i first
    refine .inl ⟨rfl, chainStart_of_ends alone fun prev found => ?_⟩
    rw [first] at found
    cases found
  rename_i prev found
  have less := (lt_of_prevSignificant? found).1
  split
  · rename_i group
    split
    · exact .inr ⟨prev, ⟨less, fun same => absurd same group,
        fun k low high => trivia k (trivia_of_prevSignificant? bound found low high)⟩, rfl⟩
    · -- A group that belongs to nothing in front of it is an operand of its own.
      refine .inl ⟨rfl, chainStart_of_ends alone fun prev found link => ?_⟩
      have order := Nat.lt_of_le_of_ne (nested.forward.groupStart_le last) group
      have linked := ((groupStart_cases nested last).resolve_left fun same => group same.1).2
      have opens := (kinds_of_links nested linked order).1
      exact absurd (Bool.and_eq_true_iff.1 link).1 (not_kindSatisfies opens TokenKind.endsOperand_of_isOpener)
  · rename_i single
    have same : ts.groupStart last = last := not_not.1 single
    split
    · rename_i link
      have operand := (Bool.and_eq_true_iff.1 link).1
      have access := (Bool.and_eq_true_iff.1 link).2
      split
      · rename_i before further
        have earlier := (lt_of_prevSignificant? further).1
        refine .inr ⟨before, ⟨earlier.trans less, fun _ => same ▸ operand, fun k low high => ?_⟩, rfl⟩
        obtain front | rfl | behind := Nat.lt_trichotomy k prev
        · exact trivia k (trivia_of_prevSignificant? (less.trans bound) further low front)
        · exact kindSatisfies_mono access fun kind h => by rw [h, Bool.or_true]
        · exact trivia k (trivia_of_prevSignificant? bound found behind high)
      · rename_i first
        refine .inl ⟨rfl, chainStart_of_ends alone fun other found' _ => ?_⟩
        rw [found] at found'
        exact Option.some.inj found' ▸ first
    · rename_i noLink
      refine .inl ⟨rfl, chainStart_of_ends alone fun other found' link => ?_⟩
      rw [found] at found'
      obtain rfl := Option.some.inj found'
      exact absurd link noLink

/-- A chain that starts at a token starts there. -/
theorem chainStart_chainStart (bound : last < ts.size) : ts.chainStart (ts.chainStart last) = ts.chainStart last := by
  induction last using Nat.strongRecOn with
  | ind last ih =>
    obtain ⟨here, again⟩ | ⟨before, continues, further⟩ := chainStart_cases nested bound
    · rw [here, again]
    · have less := continues.less.trans_le (nested.forward.groupStart_le last)
      rw [further]
      exact ih before less (less.trans bound)

/-- The operand at the end of a chain, which may be a group. -/
theorem chainFrom_groupStart (last : Nat) : ts.ChainFrom (ts.groupStart last) last := by
  obtain ⟨same, single⟩ | ⟨less, group⟩ := groupStart_cases nested last
  · rw [same]
    refine ⟨Nat.le_refl last, fun k opening low high closes linked => ?_, fun k low high => absurd low (Nat.not_lt.2 high)⟩
    obtain rfl := Nat.le_antisymm high low
    exact absurd linked (single closes opening)
  · refine ⟨less.le, fun k opening low high closes linked => ?_, fun k low high =>
      .inl ⟨_, last, group, Nat.le_refl _, low.le, high, Nat.le_refl _⟩⟩
    obtain rfl | inner := Nat.eq_or_lt_of_le low
    · exact absurd closes (not_kindSatisfies (kinds_of_links nested group less).1 TokenKind.isCloser_of_isOpener)
    · obtain rfl | below := Nat.eq_or_lt_of_le high
      · exact Nat.le_of_eq ((nested.symm _ _ group).unique linked)
      · exact (nested.inside group less linked inner below).1.le

/-- A chain and an operand that continues it are a chain. -/
theorem ChainFrom.extend {before : Nat} (chain : ts.ChainFrom start before) (continues : ts.Continues before last) :
    ts.ChainFrom start last := by
  have tail := chainFrom_groupStart nested last
  have order := chain.order
  have back := tail.order
  have less := continues.less
  refine ⟨by omega, fun k opening low high closes linked => ?_, fun k low high => ?_⟩
  · obtain front | behind := Nat.lt_or_ge k (ts.groupStart last)
    · obtain outer | inner := Nat.lt_or_ge before k
      · exact absurd closes (not_kindSatisfies (continues.joins k outer front) TokenKind.isCloser_of_joins)
      · exact chain.closer k opening low inner closes linked
    · exact (by omega : start ≤ ts.groupStart last).trans (tail.closer k opening behind high closes linked)
  · obtain outer | inner := Nat.lt_or_ge before k
    swap
    · exact (chain.part k low inner).imp_left fun inside => inside.mono (Nat.le_refl _) (by omega)
    obtain front | rfl | behind := Nat.lt_trichotomy k (ts.groupStart last)
    · exact .inr (kindSatisfies_mono (continues.joins k outer front) fun kind h => by rw [h, Bool.true_or])
    · -- The operand itself: a token that may end one, or the opener of a group.
      obtain ⟨same, -⟩ | ⟨group, linked⟩ := groupStart_cases nested last
      · rw [same]
        exact .inr (kindSatisfies_mono (continues.operand same) fun kind h => by rw [h, Bool.or_true])
      · exact .inl ⟨_, last, linked, by omega, Nat.le_refl _, back, Nat.le_refl _⟩
    · exact (tail.part k behind high).imp_left fun inside => inside.mono (by omega) (Nat.le_refl _)

theorem chainFrom_chainStart (bound : last < ts.size) : ts.ChainFrom (ts.chainStart last) last := by
  induction last using Nat.strongRecOn with
  | ind last ih =>
    obtain ⟨here, -⟩ | ⟨before, continues, further⟩ := chainStart_cases nested bound
    · rw [here]
      exact chainFrom_groupStart nested last
    · have less := continues.less.trans_le (nested.forward.groupStart_le last)
      rw [further]
      exact (ih before less (less.trans bound)).extend nested continues

end

/-! ## Expressions -/

theorem expressionEnd?_eq_none_iff (bound : i < ts.size) :
    ts.expressionEnd? i = none ↔ ts.kindSatisfies (·.endsExpression) i = true := by
  have kind : ts.kindAt? i = some ts[i].kind := kindAt?_eq_some_iff.2 ⟨bound, rfl⟩
  rw [expressionEnd?, dif_pos bound, kindSatisfies_eq kind]
  split
  · rename_i ends
    exact ⟨fun _ => ends, fun _ => rfl⟩
  · rename_i goesOn
    dsimp only
    split
    · exact ⟨nofun, fun ends => absurd ends goesOn⟩
    · exact ⟨nofun, fun ends => absurd ends goesOn⟩

section

variable (nested : ts.WellNested)
include nested

/-- A token that ends no expression, with the group that it may start. -/
theorem whole_groupEnd (goesOn : ¬ ts.kindSatisfies (·.endsExpression) i = true) : ts.Whole i (ts.groupEnd i) := by
  obtain ⟨same, single⟩ | ⟨less, group⟩ := groupEnd_cases nested i
  · rw [same]
    refine ⟨Nat.le_refl i, fun k closing low high opens linked => ?_, fun k low high terminates => ?_⟩
    · obtain rfl := Nat.le_antisymm high low
      exact absurd linked (single opens closing)
    · obtain rfl := Nat.le_antisymm high low
      exact absurd terminates goesOn
  · refine ⟨less.le, fun k closing low high opens linked => ?_, fun k low high _ =>
      ⟨i, _, group, Nat.le_refl _, low, high, Nat.le_refl _⟩⟩
    obtain rfl | inner := Nat.eq_or_lt_of_le low
    · exact Nat.le_of_eq (linked.unique group)
    · obtain rfl | below := Nat.eq_or_lt_of_le high
      · exact absurd (kinds_of_links nested group less).2 (not_kindSatisfies opens TokenKind.isCloser_of_isOpener)
      · exact (nested.inside group less linked inner below).2.le

omit nested in
/-- Two stretches with nothing significant between them. -/
theorem Whole.append {middle next : Nat} (front : ts.Whole start middle) (found : ts.nextSignificant? middle = some next)
    (behind : ts.Whole next last) : ts.Whole start last := by
  have less := (lt_of_nextSignificant? found).1
  have order := front.order
  have order' := behind.order
  have trivia {k : Nat} (low : middle < k) (high : k < next) := trivia_of_nextSignificant? found low high
  refine ⟨by omega, fun k closing low high opens linked => ?_, fun k low high terminates => ?_⟩
  · obtain before | after := Nat.lt_or_ge middle k
    swap
    · exact (front.opener k closing low after opens linked).trans (by omega)
    obtain between | reached := Nat.lt_or_ge k next
    · exact absurd opens (not_kindSatisfies (trivia before between) TokenKind.isOpener_of_isTrivia)
    · exact behind.opener k closing reached high opens linked
  · obtain before | after := Nat.lt_or_ge middle k
    swap
    · exact (front.ends k low after terminates).mono (Nat.le_refl _) (by omega)
    obtain between | reached := Nat.lt_or_ge k next
    · exact absurd terminates (not_kindSatisfies (trivia before between) TokenKind.endsExpression_of_isTrivia)
    · exact (behind.ends k reached high terminates).mono (by omega) (Nat.le_refl _)

theorem expressionTo_expressionEnd? (h : ts.expressionEnd? i = some last) : ts.ExpressionTo i last := by
  have unit (i : Nat) (bound : i < ts.size) (goesOn : ¬ ts[i].kind.endsExpression = true) :
      ts.Whole i (max (ts.groupEnd i) i) := by
    rw [Nat.max_eq_left (nested.forward.le_groupEnd i)]
    exact whole_groupEnd nested (by rwa [kindSatisfies_eq (kindAt?_eq_some_iff.2 ⟨bound, rfl⟩)])
  fun_induction expressionEnd? ts i generalizing last with
  | case1 => cases h
  | case2 i bound goesOn =>
    rename_i group next found ih
    have further := lt_of_nextSignificant? found
    cases rest : ts.expressionEnd? next with
    | none =>
      rw [rest, Option.getD_none] at h
      obtain rfl := Option.some.inj h
      refine ⟨unit i bound goesOn, further.1.trans further.2, fun other found' => ?_⟩
      rw [found] at found'
      obtain rfl := Option.some.inj found'
      exact (expressionEnd?_eq_none_iff further.2).1 rest
    | some stop =>
      rw [rest, Option.getD_some] at h
      obtain rfl := Option.some.inj h
      have behind := ih rest
      exact ⟨(unit i bound goesOn).append found behind.toWhole, behind.bound, behind.stops⟩
  | case3 i bound goesOn =>
    rename_i group none
    obtain rfl := Option.some.inj h
    refine ⟨unit i bound goesOn, Nat.max_lt.2 ⟨groupEnd_lt bound, bound⟩, fun other found => ?_⟩
    rw [none] at found
    cases found
  | case4 => cases h

end

end Tokens

/-- **The extent of chains and expressions.** Going back along a chain of a source returns where the chain starts: at or
before its last token, with no group that reaches in from before, and where it starts by itself. Going on in an
expression returns nothing just at the tokens that end expressions, and otherwise its last token: no group reaches out,
those tokens stand in groups inside of it, and one of them or nothing stands behind it. -/
theorem Lexer.tokenize_extents (source : Bytes) {i : Nat} (bound : i < (tokenize source).size) :
    let ts := tokenize source
    (Returns (ts.chainStartRun · i) (ts.chainStart i) ∧ ts.ChainFrom (ts.chainStart i) i ∧
      ts.chainStart (ts.chainStart i) = ts.chainStart i) ∧
    Returns (ts.expressionEndRun · i none) (ts.expressionEnd? i) ∧
      (ts.expressionEnd? i = none ↔ ts.kindSatisfies (·.endsExpression) i = true) ∧
      ∀ last, ts.expressionEnd? i = some last → ts.ExpressionTo i last := by
  intro ts
  have nested : ts.WellNested := (sweep_brackets source).wellNested (fun _ _ => links_tokenize) (kindAt?_tokenize source)
  refine ⟨⟨nested.forward.chainStart_returns i, Tokens.chainFrom_chainStart nested bound,
    Tokens.chainStart_chainStart nested bound⟩, ?_, Tokens.expressionEnd?_eq_none_iff bound,
    fun last => Tokens.expressionTo_expressionEnd? nested⟩
  have returns := nested.forward.expressionEnd_returns bound none
  rwa [Option.or_none] at returns

/-- A call that is a chain over two groups, in an expression with an opener that nothing closes. -/
theorem Lexer.tokenize_extents_unclosed :
    let ts := tokenize (Utf8.encode "<?php f($a->b([1], 2)[0] /* c */ ->c) . (1; ]")
    22 < ts.size ∧ Returns (ts.chainStartRun · 22) 4 ∧ ts.ChainFrom 4 22 ∧
      2 < ts.size ∧ Returns (ts.expressionEndRun · 2 none) (some 28) ∧ ts.ExpressionTo 2 28 := by
  intro ts
  have bound : 22 < ts.size := by decide +kernel
  have bound' : 2 < ts.size := by decide +kernel
  have starts : ts.chainStart 22 = 4 := by decide +kernel
  have ends : ts.expressionEnd? 2 = some 28 := by decide +kernel
  obtain ⟨⟨returns, chain, -⟩, -⟩ := tokenize_extents _ bound
  obtain ⟨-, returns', -, expression⟩ := tokenize_extents _ bound'
  exact ⟨bound, starts ▸ returns, starts ▸ chain, bound', ends ▸ returns', expression 28 ends⟩

end PhpRename
