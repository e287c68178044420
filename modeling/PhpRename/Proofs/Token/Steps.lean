import Mathlib.Order.Filter.AtTopBot.Basic
import PhpRename.Proofs.Lexer.Matching
import PhpRename.Proofs.Token.Cursor

/-!
# Navigation in steps

The recursions that follow the link of a bracket are total because they take the larger, or the smaller, of the
two indexes. Here they are without this precaution, and tokens are read without a look at the bounds. A run
has a number of steps: every turn of a loop and every call gets one step less than there was, and with none left
the run is given up.

The links of a source lead from an opener forward and from a closer back (`tokenize_forward`). So over its tokens
every run returns, when it has enough steps, and returns what the total function answers.
-/

set_option autoImplicit false

namespace PhpRename

/-! ## Runs -/

/-- Why a run does not return. -/
inductive Fault where
  /-- The steps are used up. -/
  | outOfSteps
  /-- A token is read past the last one. -/
  | outOfRange (index : Nat)
  deriving DecidableEq, Repr

/-- A run returns a value: with enough steps, however many, it ends with this value. -/
def Returns {α : Type} (run : Nat → Except Fault α) (value : α) : Prop :=
  ∃ enough, ∀ steps, enough ≤ steps → run steps = .ok value

namespace Returns

variable {α : Type} {run : Nat → Except Fault α} {value : α}

theorem eventually (h : Returns run value) : ∀ᶠ steps in Filter.atTop, run steps = .ok value :=
  Filter.eventually_atTop.2 h

theorem eventual (h : ∀ᶠ steps in Filter.atTop, run steps = .ok value) : Returns run value :=
  Filter.eventually_atTop.1 h

/-- A run that returns after its first step returns. -/
theorem next (h : ∀ᶠ steps in Filter.atTop, run (steps + 1) = .ok value) : Returns run value := by
  obtain ⟨enough, returns⟩ := Filter.eventually_atTop.1 h
  refine ⟨enough + 1, fun steps le => ?_⟩
  obtain ⟨steps, rfl⟩ : ∃ before, steps = before + 1 := ⟨steps - 1, by omega⟩
  exact returns steps (by omega)

end Returns

namespace Tokens

/-- The token at an index that is taken to be in range. -/
def read (ts : Tokens) (i : Nat) : Except Fault Token :=
  match ts[i]? with
  | some t => .ok t
  | none => .error (.outOfRange i)

/-- The first of some indexes whose token is not whitespace or a comment. -/
def firstLoud (ts : Tokens) : List Nat → Except Fault (Option Nat)
  | [] => .ok none
  | i :: rest => do
    let t ← ts.read i
    if t.kind.isTrivia then firstLoud ts rest else return some i

/-- Going back along a chain, from the token that is looked at to where the chain starts. -/
def chainStartRun (ts : Tokens) : Nat → Nat → Except Fault Nat
  | 0, _ => .error .outOfSteps
  | steps + 1, last =>
    let operand := ts.groupStart last
    match ts.prevSignificant? operand with
    | none => .ok operand
    | some prev =>
      if operand ≠ last then
        if ts.kindSatisfies (·.endsOperand) prev then chainStartRun ts steps prev else .ok operand
      else if ts.kindSatisfies (·.endsOperand) operand && ts.kindSatisfies (·.isAccess) prev then
        match ts.prevSignificant? prev with
        | some before => chainStartRun ts steps before
        | none => .ok operand
      else .ok operand

/-- Going on in an expression, from the token that is looked at to where the expression ends; `last?` is the
last token so far. -/
def expressionEndRun (ts : Tokens) : Nat → Nat → Option Nat → Except Fault (Option Nat)
  | 0, _, _ => .error .outOfSteps
  | steps + 1, i, last? => do
    let t ← ts.read i
    if t.kind.endsExpression then return last?
    match ts.nextSignificant? (ts.groupEnd i) with
    | some next => expressionEndRun ts steps next (some (ts.groupEnd i))
    | none => return some (ts.groupEnd i)

/-- Links that lead from an opener forward to a token, and from a closer back. -/
structure Forward (ts : Tokens) : Prop where
  opener (i : Nat) (t : Token) (close : Nat) (found : ts[i]? = some t) (opens : t.kind.isOpener = true)
    (linked : t.matching = some close) : i < close ∧ close < ts.size
  closer (i : Nat) (t : Token) (opening : Nat) (found : ts[i]? = some t) (closes : t.kind.isCloser = true)
    (linked : t.matching = some opening) : opening < i

/-- Well-nested links lead forward from an opener and back from a closer. -/
theorem WellNested.forward {ts : Tokens} (nested : ts.WellNested) : ts.Forward where
  opener i t close found opens linked := by
    obtain ⟨partner, there, -⟩ := nested.symm i close ⟨t, found, linked⟩
    exact ⟨nested.lt_of_opener ⟨t, found, linked⟩ found opens, (Array.getElem?_eq_some_iff.1 there).1⟩
  closer i t opening found closes linked := by
    obtain ⟨shape, closer⟩ := Option.isSome_iff_exists.1 ((TokenKind.isCloser_iff_opener? t.kind).1 closes)
    exact nested.lt_of_noOpener ⟨t, found, linked⟩ found (TokenKind.isOpener_of_closer closer)

end Tokens

namespace Lexer

theorem tokenize_forward (source : Bytes) : (tokenize source).Forward :=
  ((sweep_brackets source).wellNested (fun _ _ => links_tokenize) (kindAt?_tokenize source)).forward

end Lexer

namespace Tokens

variable {ts : Tokens}

/-! ## Reads in range -/

theorem read_eq {i : Nat} {t : Token} (h : ts[i]? = some t) : ts.read i = .ok t := by
  rw [read, h]

theorem read_of_lt {i : Nat} (h : i < ts.size) : ts.read i = .ok ts[i] := read_eq (Array.getElem?_eq_getElem h)

/-- Whether the token at an index is something else than whitespace or a comment. -/
def isLoud (ts : Tokens) (i : Nat) : Bool := ts.kindSatisfies (!·.isTrivia) i

theorem firstLoud_eq {l : List Nat} (bounds : ∀ i ∈ l, i < ts.size) : ts.firstLoud l = .ok (l.find? ts.isLoud) := by
  induction l with
  | nil => rfl
  | cons i rest ih =>
    have bound : i < ts.size := bounds i (List.mem_cons_self ..)
    have loud : ts.isLoud i = !ts[i].kind.isTrivia := kindSatisfies_eq (kindAt?_eq_some_iff.2 ⟨bound, rfl⟩) _
    rw [firstLoud, read_of_lt bound, List.find?_cons, loud]
    dsimp only [bind, Except.bind]
    cases ts[i].kind.isTrivia with
    | true => exact ih fun j mem => bounds j (List.mem_cons_of_mem i mem)
    | false => rfl

/-- Going through a stretch from its start finds its first significant token. -/
theorem find?_range' {i n : Nat} (bound : i + n ≤ ts.size) :
    (List.range' i n).find? ts.isLoud = ts.significantBetween? i (i + n) := by
  induction n generalizing i with
  | zero =>
    have past : ∀ j ∈ ts.findFrom? (!·.isTrivia) (fun _ => false) i, ¬ decide (j < i + 0) = true := by
      intro j found
      have := (findFrom?_spec _ _ _ _ _ found).1
      simpa using this
    rw [significantBetween?, List.range'_zero, List.find?_nil, Option.filter_eq_none_iff.2 past]
  | succ n ih =>
    have lt : i < ts.size := by omega
    have kind : ts.kindAt? i = some ts[i].kind := kindAt?_eq_some_iff.2 ⟨lt, rfl⟩
    rw [List.range'_succ, List.find?_cons, isLoud, kindSatisfies_eq kind]
    cases trivia : ts[i].kind.isTrivia with
    | true =>
      have further : i + 1 + n = i + (n + 1) := by omega
      rw [significantBetween?, findFrom?_past kind (by rw [trivia]; rfl) rfl, ← further, ← significantBetween?,
        ← ih (by omega)]
      rfl
    | false =>
      have inside : i < i + (n + 1) := by omega
      rw [significantBetween?, findFrom?_here kind (by rw [trivia]; rfl), Option.filter_some,
        if_pos (decide_eq_true inside)]
      rfl

/-- Going through a stretch from its end finds its last significant token. -/
theorem find?_reverse_range' {i n : Nat} :
    (List.range' i n).reverse.find? ts.isLoud = (ts.findBefore? (!·.isTrivia) (i + n)).filter (i ≤ ·) := by
  induction n with
  | zero =>
    have before : ∀ j ∈ ts.findBefore? (!·.isTrivia) (i + 0), ¬ decide (i ≤ j) = true := by
      intro j found
      have := (lt_of_findBefore? _ _ _ _ found).1
      simpa using this
    rw [List.range'_zero, List.reverse_nil, List.find?_nil, Option.filter_eq_none_iff.2 before]
  | succ n ih =>
    rw [List.range'_concat, List.reverse_append, List.reverse_singleton, List.singleton_append, List.find?_cons,
      Nat.one_mul, ← Nat.add_assoc, findBefore?, ih, isLoud]
    cases ts.kindSatisfies (!·.isTrivia) (i + n) with
    | true => simp [Option.filter_some]
    | false => rfl

/-- The first significant token of a stretch in range is found without a fault. -/
theorem firstLoud_range' (i : Nat) {stop : Nat} (bound : stop ≤ ts.size) :
    ts.firstLoud (List.range' i (stop - i)) = .ok (ts.significantBetween? i stop) := by
  rcases Nat.le_total i stop with le | le
  · have whole : i + (stop - i) = stop := by omega
    rw [firstLoud_eq, find?_range' (by omega), whole]
    intro j mem
    have := List.mem_range'_1.1 mem
    omega
  · have empty : stop - i = 0 := by omega
    have past : ∀ j ∈ ts.findFrom? (!·.isTrivia) (fun _ => false) i, ¬ decide (j < stop) = true := by
      intro j found
      have := (findFrom?_spec _ _ _ _ _ found).1
      simpa using Nat.le_trans le this
    rw [empty, List.range'_zero, significantBetween?, Option.filter_eq_none_iff.2 past]
    rfl

/-- So is the last one. -/
theorem firstLoud_reverse_range' (start : Nat) {stop : Nat} (bound : stop < ts.size) :
    ts.firstLoud (List.range' start (stop + 1 - start)).reverse =
      .ok ((ts.findBefore? (!·.isTrivia) (stop + 1)).filter (start ≤ ·)) := by
  rw [firstLoud_eq]
  · rcases Nat.le_total start (stop + 1) with le | le
    · have whole : start + (stop + 1 - start) = stop + 1 := by omega
      rw [find?_reverse_range', whole]
    · have empty : stop + 1 - start = 0 := by omega
      have before : ∀ j ∈ ts.findBefore? (!·.isTrivia) (stop + 1), ¬ decide (start ≤ j) = true := by
        intro j found
        have := (lt_of_findBefore? _ _ _ _ found).1
        simp only [decide_eq_true_eq]
        omega
      rw [empty, List.range'_zero, List.reverse_nil, List.find?_nil, Option.filter_eq_none_iff.2 before]
  · intro j mem
    have := List.mem_range'_1.1 (List.mem_reverse.1 mem)
    omega

/-! ## Runs over linked tokens -/

theorem matching?_eq_some_iff {i j : Nat} :
    ts.matching? i = some j ↔ (∃ t, ts[i]? = some t ∧ t.matching = some j) ∧ j < ts.size := by
  rw [matching?, Option.bind_eq_some_iff]
  constructor
  · rintro ⟨k, linked, range⟩
    obtain ⟨lt, same⟩ := Option.ite_none_right_eq_some.1 range
    obtain rfl := Option.some.inj same
    exact ⟨Option.bind_eq_some_iff.1 linked, lt⟩
  · rintro ⟨linked, lt⟩
    exact ⟨j, Option.bind_eq_some_iff.2 linked, if_pos lt⟩

theorem WellNested.matching?_iff (nested : ts.WellNested) {i j : Nat} : ts.matching? i = some j ↔ ts.Links i j := by
  rw [matching?_eq_some_iff]
  refine ⟨And.left, fun linked => ⟨linked, ?_⟩⟩
  obtain ⟨t, token, -⟩ := nested.symm i j linked
  exact (Array.getElem?_eq_some_iff.1 token).1

theorem kindSatisfies_of_getElem? {i : Nat} {t : Token} (found : ts[i]? = some t) (test : TokenKind → Bool) :
    ts.kindSatisfies test i = test t.kind := by
  rw [kindSatisfies, kindAt?, found]
  rfl

theorem groupEnd_lt {i : Nat} (bound : i < ts.size) : ts.groupEnd i < ts.size := by
  rw [groupEnd]
  split
  · cases partner : ts.matching? i with
    | none => exact bound
    | some j => exact (matching?_eq_some_iff.1 partner).2
  · exact bound

/-- The end of an expression is a token. -/
theorem expressionEnd?_lt {i last : Nat} (h : ts.expressionEnd? i = some last) : last < ts.size := by
  fun_induction expressionEnd? ts i generalizing last with
  | case1 => cases h
  | case2 i bound =>
    rename_i next found ih
    have group := groupEnd_lt bound
    cases further : ts.expressionEnd? next with
    | none =>
      rw [further] at h
      obtain rfl := Option.some.inj h
      exact Nat.max_lt.2 ⟨group, bound⟩
    | some stop =>
      rw [further] at h
      obtain rfl := Option.some.inj h
      exact ih further
  | case3 i bound =>
    obtain rfl := Option.some.inj h
    exact Nat.max_lt.2 ⟨groupEnd_lt bound, bound⟩
  | case4 => cases h

namespace Forward

variable (forward : ts.Forward)
include forward

theorem groupStart_le (i : Nat) : ts.groupStart i ≤ i := by
  rw [groupStart]
  split
  · rename_i closes
    cases partner : ts.matching? i with
    | none => exact Nat.le_refl i
    | some j =>
      obtain ⟨⟨t, found, linked⟩, -⟩ := matching?_eq_some_iff.1 partner
      rw [kindSatisfies_of_getElem? found] at closes
      exact (forward.closer i t j found closes linked).le
  · exact Nat.le_refl i

theorem le_groupEnd (i : Nat) : i ≤ ts.groupEnd i := by
  rw [groupEnd]
  split
  · rename_i opens
    cases partner : ts.matching? i with
    | none => exact Nat.le_refl i
    | some j =>
      obtain ⟨⟨t, found, linked⟩, -⟩ := matching?_eq_some_iff.1 partner
      rw [kindSatisfies_of_getElem? found] at opens
      exact (forward.opener i t j found opens linked).1.le
  · exact Nat.le_refl i

/-- Going back along a chain returns where it starts. -/
theorem chainStart_returns (last : Nat) : Returns (ts.chainStartRun · last) (ts.chainStart last) := by
  induction last using Nat.strongRecOn with
  | ind last ih =>
    have back : min (ts.groupStart last) last = ts.groupStart last := Nat.min_eq_left (forward.groupStart_le last)
    rw [chainStart, back]
    split
    · rename_i first
      refine .next (.of_forall fun steps => ?_)
      simp only [chainStartRun, first]
    rename_i prev found
    have less := (lt_of_prevSignificant? found).1
    have start := forward.groupStart_le last
    split
    · rename_i group
      split
      · rename_i operand
        refine .next ?_
        filter_upwards [(ih prev (by omega)).eventually] with steps returns
        simp only [chainStartRun, found, if_pos group, if_pos operand, returns]
      · rename_i other
        refine .next (.of_forall fun steps => ?_)
        simp only [chainStartRun, found, if_pos group, if_neg other]
    · rename_i single
      split
      · rename_i link
        split
        · rename_i before further
          have earlier := (lt_of_prevSignificant? further).1
          refine .next ?_
          filter_upwards [(ih before (by omega)).eventually] with steps returns
          simp only [chainStartRun, found, if_neg single, if_pos link, further, returns]
        · rename_i first
          refine .next (.of_forall fun steps => ?_)
          simp only [chainStartRun, found, if_neg single, if_pos link, first]
      · rename_i noLink
        refine .next (.of_forall fun steps => ?_)
        simp only [chainStartRun, found, if_neg single, if_neg noLink]

/-- Going on in an expression returns where it ends, or what was the last token when it has ended. -/
theorem expressionEnd_returns {i : Nat} (bound : i < ts.size) (last? : Option Nat) :
    Returns (ts.expressionEndRun · i last?) ((ts.expressionEnd? i).or last?) := by
  induction left : ts.size - i using Nat.strongRecOn generalizing i last? with
  | ind n ih =>
    have read := read_of_lt bound
    have ahead : max (ts.groupEnd i) i = ts.groupEnd i := Nat.max_eq_left (forward.le_groupEnd i)
    rw [expressionEnd?, dif_pos bound, ahead]
    split
    · rename_i ends
      refine .next (.of_forall fun steps => ?_)
      simp only [expressionEndRun, read, bind, Except.bind, if_pos ends]
      rfl
    · rename_i goesOn
      dsimp only
      split
      · rename_i next found
        have further := lt_of_nextSignificant? found
        have start := forward.le_groupEnd i
        have less : ts.size - next < n := by omega
        refine .next ?_
        filter_upwards [(ih _ less further.2 (some (ts.groupEnd i)) rfl).eventually] with steps returns
        simp only [expressionEndRun, read, bind, Except.bind, if_neg goesOn, found, returns]
        cases ts.expressionEnd? next <;> rfl
      · rename_i last
        refine .next (.of_forall fun steps => ?_)
        simp only [expressionEndRun, read, bind, Except.bind, if_neg goesOn, last]
        rfl

end Forward

/-- Over a link that leads back to where the expression goes on, the run never ends. -/
theorem expressionEndRun_circle {i : Nat} {t : Token} (found : ts[i]? = some t)
    (goesOn : ¬ t.kind.endsExpression = true) (circle : ts.nextSignificant? (ts.groupEnd i) = some i)
    (steps : Nat) (last? : Option Nat) :
    ts.expressionEndRun steps i last? = .error .outOfSteps := by
  induction steps generalizing last? with
  | zero => rfl
  | succ steps ih =>
    simp only [expressionEndRun, read_eq found, bind, Except.bind, if_neg goesOn, circle]
    exact ih (some (ts.groupEnd i))

end Tokens

end PhpRename
