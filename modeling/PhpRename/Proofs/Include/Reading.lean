import PhpRename.Include.Argument

/-!
# Reading include arguments

The tokens of an argument are read one by one, with the strings so far and a flag for what is to come. `Reading.run?_eq`
is what such a reading comes to from any state that waits for a string, and from the beginning it comes to what
`ofTokens?` cuts out of the significant tokens by pairs (`run?_slice`).
-/

set_option autoImplicit false

namespace PhpRename

namespace Tokens

variable {ts : Tokens} {start stop j : Nat} {t : Token}

theorem getElem?_of_mem_slice (h : (j, t) ∈ ts.slice start stop) : ts[j]? = some t := by
  obtain ⟨i, -, found⟩ := List.mem_filterMap.1 h
  obtain ⟨u, hu, same⟩ := Option.map_eq_some_iff.1 found
  cases same
  exact hu

/-- The significant tokens of a slice. -/
theorem significantIn_eq (ts : Tokens) (start stop : Nat) :
    ts.significantIn start stop = (ts.slice start stop).filter (!·.2.kind.isTrivia) := by
  rw [significantIn, slice, List.filter_filterMap]
  congr 1
  funext i
  cases ts[i]? with
  | none => rfl
  | some t =>
    rw [Option.map_some, Option.filter_some, Option.filter_some]
    split <;> rfl

theorem getElem?_of_mem_significantIn (h : (j, t) ∈ ts.significantIn start stop) : ts[j]? = some t := by
  rw [significantIn_eq] at h
  exact getElem?_of_mem_slice (List.mem_filter.1 h).1

end Tokens

namespace IncludeArgument

/-- The indexes of the strings of a concatenation. -/
def concatenation? : List (Nat × Token) → Option (List Nat)
  | [] => none
  | [(i, t)] => if isFixed t then some [i] else none
  | (i, t) :: (_, dot) :: rest =>
    if isFixed t && dot.kind == .concat then (concatenation? rest).map (i :: ·) else none

/-- The argument that significant tokens spell. -/
def ofTokens? : List (Nat × Token) → Option IncludeArgument
  | (i, t) :: (j, dot) :: rest =>
    if isAnchor t && dot.kind == .concat then (concatenation? rest).map (⟨·, true⟩)
    else (concatenation? ((i, t) :: (j, dot) :: rest)).map (⟨·, false⟩)
  | tokens => (concatenation? tokens).map (⟨·, false⟩)

namespace Reading

variable {r : Reading} {i : Nat} {t : Token} {tokens : List (Nat × Token)}

/-! ## One token -/

theorem next?_of_isTrivia (trivia : t.kind.isTrivia = true) : r.next? i t = some r := by rw [next?, if_pos trivia]

/-- Where an operand is to come, a string is read, or the anchor when nothing stood in front. -/
theorem next?_operand (wants : r.wantsOperand = true) (significant : t.kind.isTrivia = false) :
    r.next? i t = if isFixed t then some { r with strings := r.strings ++ [i], wantsOperand := false }
      else if isAnchor t && r.strings.isEmpty && !r.anchored then some { r with anchored := true, wantsOperand := false }
      else none := by
  simp [next?, wants, significant]

/-- Behind a string or the anchor, the anchor is not read any more. -/
theorem next?_string (wants : r.wantsOperand = true) (significant : t.kind.isTrivia = false)
    (plain : isAnchor t = true → r.strings.isEmpty = false ∨ r.anchored = true) :
    r.next? i t = if isFixed t then some { r with strings := r.strings ++ [i], wantsOperand := false } else none := by
  rw [next?_operand wants significant, if_neg (c := (isAnchor t && r.strings.isEmpty && !r.anchored) = true)]
  intro anchor
  simp only [Bool.and_eq_true, Bool.not_eq_true'] at anchor
  have taken := plain anchor.1.1
  simp [anchor.1.2, anchor.2] at taken

/-- Where a dot is to come, nothing else is read. -/
theorem next?_dot (wants : r.wantsOperand = false) (significant : t.kind.isTrivia = false) :
    r.next? i t = if t.kind == .concat then some { r with wantsOperand := true } else none := by
  simp [next?, wants, significant]

/-! ## All tokens -/

theorem run?_nil (r : Reading) : r.run? [] = r.argument? := rfl

theorem run?_cons (r : Reading) (i : Nat) (t : Token) (tokens : List (Nat × Token)) :
    r.run? ((i, t) :: tokens) = (r.next? i t).bind (·.run? tokens) := by
  rw [run?, List.foldlM_cons]
  exact Option.bind_assoc ..

/-- Only significant tokens are read. -/
theorem run?_filter (r : Reading) (tokens : List (Nat × Token)) :
    r.run? (tokens.filter (!·.2.kind.isTrivia)) = r.run? tokens := by
  induction tokens generalizing r with
  | nil => rfl
  | cons p tokens ih =>
    obtain ⟨i, t⟩ := p
    rw [List.filter_cons]
    cases trivia : t.kind.isTrivia with
    | true =>
      rw [run?_cons, next?_of_isTrivia trivia, Option.bind_some, ← ih]
      rfl
    | false =>
      rw [run?_cons]
      exact (run?_cons ..).trans (Option.bind_congr fun r' _ => ih r')

/-- **Reading on.** From a state that waits for a string, and where the next token is not taken for the anchor, the
strings of the concatenation that follows are added to those that have been read. -/
theorem run?_eq (wants : r.wantsOperand = true) (significant : ∀ p ∈ tokens, p.2.kind.isTrivia = false)
    (plain : ∀ p ∈ tokens.head?, isAnchor p.2 = true → r.strings.isEmpty = false ∨ r.anchored = true) :
    r.run? tokens = (concatenation? tokens).map fun more => ⟨r.strings ++ more, r.anchored⟩ := by
  fun_induction concatenation? tokens generalizing r with
  | case1 => rw [run?_nil, argument?, wants, Bool.or_true, if_pos rfl]; rfl
  | case2 i t fixed =>
    rw [run?_cons, next?_string wants (significant (i, t) (by simp)) (plain (i, t) rfl), if_pos fixed]
    simp [run?_nil, argument?]
  | case3 i t other =>
    rw [run?_cons, next?_string wants (significant (i, t) (by simp)) (plain (i, t) rfl), if_neg other]
    rfl
  | case4 i t j dot rest both ih =>
    obtain ⟨fixed, joined⟩ := Bool.and_eq_true_iff.1 both
    have behind : dot.kind.isTrivia = false := significant (j, dot) (by simp)
    have later : ∀ p ∈ rest, p.2.kind.isTrivia = false := fun p mem => significant p (by simp [mem])
    rw [run?_cons, next?_string wants (significant (i, t) (by simp)) (plain (i, t) rfl), if_pos fixed, Option.bind_some,
      run?_cons, next?_dot rfl behind, if_pos joined, Option.bind_some, ih rfl later (by simp), Option.map_map]
    simp [Function.comp_def]
  | case5 i t j dot rest other =>
    have behind : dot.kind.isTrivia = false := significant (j, dot) (by simp)
    rw [run?_cons, next?_string wants (significant (i, t) (by simp)) (plain (i, t) rfl)]
    split
    · rename_i fixed
      rw [Option.bind_some, run?_cons, next?_dot rfl behind, if_neg]
      · rfl
      · simpa [fixed] using other
    · rfl

/-- From the beginning, the significant tokens are read as they are cut by pairs. -/
theorem run?_eq_ofTokens? (significant : ∀ p ∈ tokens, p.2.kind.isTrivia = false) :
    run? {} tokens = ofTokens? tokens := by
  by_cases plain : ∀ p ∈ tokens.head?, isAnchor p.2 = true → False
  · have read := run?_eq (r := {}) rfl significant fun p mem anchor => (plain p mem anchor).elim
    rw [read, ofTokens?.eq_def]
    split
    · rename_i i t j dot rest
      rw [if_neg fun both => plain (i, t) rfl (Bool.and_eq_true_iff.1 both).1]
      rfl
    · rfl
  · -- The anchor is no string, so without a dot behind it there is no argument.
    obtain ⟨⟨i, t⟩, head, anchor⟩ : ∃ p ∈ tokens.head?, isAnchor p.2 = true := by simpa using plain
    obtain ⟨rest, rfl⟩ := List.head?_eq_some_iff.1 head
    have other : isFixed t = false := by
      have name := (Bool.and_eq_true_iff.1 anchor).1
      rw [isFixed, beq_iff_eq.1 name]
      rfl
    have first : next? {} i t = some ⟨[], true, false⟩ := by
      rw [next?_operand rfl (significant (i, t) (by simp)), if_neg (by simp [other]), if_pos (by simp [anchor])]
    rw [run?_cons, first, Option.bind_some]
    cases rest with
    | nil => simp [run?_nil, argument?, ofTokens?, concatenation?, other]
    | cons q rest =>
      obtain ⟨j, dot⟩ := q
      rw [run?_cons, next?_dot rfl (significant (j, dot) (by simp)), ofTokens?, anchor, Bool.true_and]
      split
      · rw [Option.bind_some, run?_eq rfl (fun p mem => significant p (by simp [mem])) (by simp)]
        rfl
      · rw [concatenation?, other, Bool.false_and, if_neg Bool.false_ne_true]
        rfl

end Reading

/-- **Reading an argument.** The tokens between two indexes are read as `ofTokens?` cuts the significant ones. -/
theorem run?_slice (ts : Tokens) (start stop : Nat) :
    Reading.run? {} (ts.slice start stop) = ofTokens? (ts.significantIn start stop) := by
  rw [Tokens.significantIn_eq, ← Reading.run?_filter, Reading.run?_eq_ofTokens?]
  intro p mem
  simpa using (List.mem_filter.1 mem).2

/-! ## Strings of an argument -/

theorem of_concatenation? {tokens : List (Nat × Token)} {strings : List Nat}
    (h : concatenation? tokens = some strings) : strings ≠ [] ∧ ∀ j ∈ strings, ∃ t, (j, t) ∈ tokens := by
  fun_induction concatenation? tokens generalizing strings with
  | case1 => cases h
  | case2 i t fixed =>
    cases h
    exact ⟨by simp, fun j hj => ⟨t, by rw [List.mem_singleton.1 hj]; simp⟩⟩
  | case3 => cases h
  | case4 i t k dot rest ok ih =>
    obtain ⟨more, hm, rfl⟩ := Option.map_eq_some_iff.1 h
    refine ⟨by simp, fun j hj => ?_⟩
    rcases List.mem_cons.1 hj with rfl | hj
    · exact ⟨t, by simp⟩
    · obtain ⟨u, hu⟩ := (ih hm).2 j hj
      exact ⟨u, by simp [hu]⟩
  | case5 => cases h

theorem of_ofTokens? {tokens : List (Nat × Token)} {a : IncludeArgument} (h : ofTokens? tokens = some a) :
    a.strings ≠ [] ∧ ∀ j ∈ a.strings, ∃ t, (j, t) ∈ tokens := by
  rw [ofTokens?.eq_def] at h
  split at h
  · split at h
    · obtain ⟨strings, hs, rfl⟩ := Option.map_eq_some_iff.1 h
      obtain ⟨ne, mem⟩ := of_concatenation? hs
      refine ⟨ne, fun j hj => ?_⟩
      obtain ⟨t, ht⟩ := mem j hj
      exact ⟨t, by simp [ht]⟩
    · obtain ⟨strings, hs, rfl⟩ := Option.map_eq_some_iff.1 h
      exact of_concatenation? hs
  · obtain ⟨strings, hs, rfl⟩ := Option.map_eq_some_iff.1 h
    exact of_concatenation? hs

/-- An argument has a first and a last string among the tokens. -/
theorem exists_first_last {ts : Tokens} {i : Nat} {a : IncludeArgument} (h : at? ts i = some a) :
    ∃ first last, a.first? ts = some first ∧ a.last? ts = some last := by
  rw [at?] at h
  split at h
  · obtain ⟨⟨start, stop⟩, -, read⟩ := Option.bind_eq_some_iff.1 h
    obtain ⟨ne, mem⟩ := of_ofTokens? ((run?_slice ts start stop).symm.trans read)
    have token : ∀ j ∈ a.strings, ∃ t, ts[j]? = some t := fun j hj =>
      (mem j hj).imp fun t ht => Tokens.getElem?_of_mem_significantIn ht
    obtain ⟨first, hf⟩ := token _ (List.head_mem ne)
    obtain ⟨last, hl⟩ := token _ (List.getLast_mem ne)
    refine ⟨first, last, ?_, ?_⟩
    · rw [first?, List.head?_eq_some_head ne]
      exact hf
    · rw [last?, List.getLast?_eq_some_getLast ne]
      exact hl
  · cases h

end IncludeArgument

end PhpRename
