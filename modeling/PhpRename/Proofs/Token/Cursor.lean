import PhpRename.Token.Expression

/-!
# Steps of the cursor

What a step over tokens of known kinds answers: a search stops at the first token that it wants and
goes on past the others, and a group is one unit when its brackets are linked.
-/

set_option autoImplicit false

namespace PhpRename.Tokens

variable {ts : Tokens} {i : Nat} {kind : TokenKind}

theorem kindAt?_eq_some_iff : ts.kindAt? i = some kind ↔ ∃ h : i < ts.size, ts[i].kind = kind := by
  rw [kindAt?, Option.map_eq_some_iff]
  constructor
  · rintro ⟨t, ht, same⟩
    obtain ⟨h, rfl⟩ := Array.getElem?_eq_some_iff.1 ht
    exact ⟨h, same⟩
  · rintro ⟨h, same⟩
    exact ⟨ts[i], Array.getElem?_eq_getElem h, same⟩

theorem kindSatisfies_eq (h : ts.kindAt? i = some kind) (test : TokenKind → Bool) :
    ts.kindSatisfies test i = test kind := by
  rw [kindSatisfies, h, Option.any_some]

theorem isAt_eq (h : ts.kindAt? i = some kind) (wanted : TokenKind) : ts.isAt wanted i = (kind == wanted) := by
  rw [isAt, h]
  rfl

/-! ## Searches -/

theorem findFrom?_here {wanted stop : TokenKind → Bool} (h : ts.kindAt? i = some kind) (here : wanted kind = true) :
    ts.findFrom? wanted stop i = some i := by
  obtain ⟨lt, same⟩ := kindAt?_eq_some_iff.1 h
  rw [findFrom?, dif_pos lt, same, if_pos here]

theorem findFrom?_past {wanted stop : TokenKind → Bool} (h : ts.kindAt? i = some kind) (other : wanted kind = false)
    (goes : stop kind = false) : ts.findFrom? wanted stop i = ts.findFrom? wanted stop (i + 1) := by
  obtain ⟨lt, same⟩ := kindAt?_eq_some_iff.1 h
  rw [findFrom?, dif_pos lt, same, other, goes, if_neg Bool.false_ne_true, if_neg Bool.false_ne_true]

/-- A search that nothing stops finds the first token from an index on that it wants. -/
theorem findFrom?_eq_some_iff {wanted : TokenKind → Bool} {j : Nat} :
    ts.findFrom? wanted (fun _ => false) i = some j ↔
      i ≤ j ∧ ts.kindSatisfies wanted j = true ∧ ∀ k, i ≤ k → k < j → ts.kindSatisfies wanted k = false := by
  fun_induction findFrom? ts wanted (fun _ => false) i with
  | case1 i inside here =>
    have satisfies : ts.kindSatisfies wanted i = true :=
      (kindSatisfies_eq (kindAt?_eq_some_iff.2 ⟨inside, rfl⟩) wanted).trans here
    constructor
    · intro same
      obtain rfl := Option.some.inj same
      exact ⟨Nat.le_refl i, satisfies, fun k le less => absurd le (Nat.not_le.2 less)⟩
    · rintro ⟨le, -, before⟩
      obtain rfl | less := Nat.eq_or_lt_of_le le
      · rfl
      · rw [before i (Nat.le_refl i) less] at satisfies
        cases satisfies
  | case2 i inside other stops => cases stops
  | case3 i inside other goes ih =>
    have fails : ts.kindSatisfies wanted i = false :=
      (kindSatisfies_eq (kindAt?_eq_some_iff.2 ⟨inside, rfl⟩) wanted).trans (Bool.eq_false_iff.2 other)
    rw [ih]
    constructor
    · rintro ⟨le, here, before⟩
      refine ⟨Nat.le_of_succ_le le, here, fun k le' less => ?_⟩
      obtain rfl | behind := Nat.eq_or_lt_of_le le'
      · exact fails
      · exact before k behind less
    · rintro ⟨le, here, before⟩
      refine ⟨Nat.lt_of_le_of_ne le ?_, here, fun k le' less => before k (Nat.le_of_succ_le le') less⟩
      rintro rfl
      rw [fails] at here
      cases here
  | case4 i past =>
    constructor
    · intro none
      cases none
    · rintro ⟨le, here, -⟩
      rw [kindSatisfies, Option.any_eq_true] at here
      obtain ⟨kind, token, -⟩ := here
      have := (kindAt?_eq_some_iff.1 token).1
      omega

/-- A search backwards finds the last token before an index that it wants. -/
theorem findBefore?_eq_some_iff {wanted : TokenKind → Bool} {j : Nat} :
    ts.findBefore? wanted i = some j ↔
      j < i ∧ ts.kindSatisfies wanted j = true ∧ ∀ k, j < k → k < i → ts.kindSatisfies wanted k = false := by
  induction i with
  | zero =>
    constructor
    · intro none
      cases none
    · rintro ⟨less, -⟩
      exact absurd less (Nat.not_lt_zero j)
  | succ i ih =>
    rw [findBefore?]
    split
    next here =>
      constructor
      · intro same
        obtain rfl := Option.some.inj same
        exact ⟨Nat.lt_succ_self i, here, fun k behind less => absurd behind (Nat.not_lt.2 (Nat.le_of_lt_succ less))⟩
      · rintro ⟨less, -, between⟩
        obtain rfl | less := Nat.eq_or_lt_of_le (Nat.le_of_lt_succ less)
        · rfl
        · rw [between i less (Nat.lt_succ_self i)] at here
          cases here
    next other =>
      rw [ih]
      constructor
      · rintro ⟨less, here, between⟩
        refine ⟨Nat.lt_succ_of_lt less, here, fun k behind less' => ?_⟩
        obtain rfl | less' := Nat.eq_or_lt_of_le (Nat.le_of_lt_succ less')
        · exact Bool.eq_false_iff.2 other
        · exact between k behind less'
      · rintro ⟨less, here, between⟩
        refine ⟨Nat.lt_of_le_of_ne (Nat.le_of_lt_succ less) ?_, here, fun k behind less' => ?_⟩
        · rintro rfl
          exact other here
        · exact between k behind (Nat.lt_succ_of_lt less')

theorem nextSignificant?_here (h : ts.kindAt? (i + 1) = some kind) (loud : kind.isTrivia = false) :
    ts.nextSignificant? i = some (i + 1) :=
  findFrom?_here h (by rw [loud, Bool.not_false])

theorem nextSignificant?_past (h : ts.kindAt? (i + 1) = some kind) (silent : kind.isTrivia = true) :
    ts.nextSignificant? i = ts.nextSignificant? (i + 1) :=
  findFrom?_past h (by rw [silent, Bool.not_true]) rfl

theorem prevSignificant?_here (h : ts.kindAt? i = some kind) (loud : kind.isTrivia = false) :
    ts.prevSignificant? (i + 1) = some i := by
  rw [prevSignificant?, findBefore?, kindSatisfies_eq h, loud, Bool.not_false, if_pos rfl]

theorem prevSignificant?_past (h : ts.kindAt? i = some kind) (silent : kind.isTrivia = true) :
    ts.prevSignificant? (i + 1) = ts.prevSignificant? i := by
  rw [prevSignificant?, findBefore?, kindSatisfies_eq h, silent, Bool.not_true, if_neg Bool.false_ne_true,
    prevSignificant?]

/-- The significant token behind the one in front of a significant token is that token. -/
theorem nextSignificant?_of_prevSignificant? {j : Nat} (before : ts.prevSignificant? i = some j)
    (h : ts.kindAt? i = some kind) (loud : kind.isTrivia = false) : ts.nextSignificant? j = some i := by
  obtain ⟨less, -, between⟩ := findBefore?_eq_some_iff.1 before
  refine findFrom?_eq_some_iff.2 ⟨less, ?_, fun k le => between k le⟩
  rw [kindSatisfies_eq h, loud, Bool.not_false]

/-! ## Tokens of the same kinds -/

section

variable {ts' : Tokens} (kinds : ∀ i, ts.kindAt? i = ts'.kindAt? i)
include kinds

theorem kindSatisfies_congr (test : TokenKind → Bool) (i : Nat) : ts.kindSatisfies test i = ts'.kindSatisfies test i := by
  rw [kindSatisfies, kindSatisfies, kinds]

theorem findFrom?_congr (wanted stop : TokenKind → Bool) (i : Nat) :
    ts.findFrom? wanted stop i = ts'.findFrom? wanted stop i := by
  fun_induction findFrom? ts wanted stop i with
  | case1 i lt here =>
    have kind : ts.kindAt? i = some ts[i].kind := kindAt?_eq_some_iff.2 ⟨lt, rfl⟩
    rw [kinds] at kind
    exact (findFrom?_here kind here).symm
  | case2 i lt other ends =>
    have kind : ts.kindAt? i = some ts[i].kind := kindAt?_eq_some_iff.2 ⟨lt, rfl⟩
    rw [kinds] at kind
    obtain ⟨lt', same⟩ := kindAt?_eq_some_iff.1 kind
    rw [findFrom?, dif_pos lt', same, if_neg other, if_pos ends]
  | case3 i lt other goes ih =>
    have kind : ts.kindAt? i = some ts[i].kind := kindAt?_eq_some_iff.2 ⟨lt, rfl⟩
    rw [kinds] at kind
    rw [ih, findFrom?_past kind (Bool.eq_false_iff.2 other) (Bool.eq_false_iff.2 goes)]
  | case4 i past =>
    have none : ¬ i < ts'.size := by
      intro lt
      obtain ⟨lt', -⟩ := kindAt?_eq_some_iff.1 ((kinds i).trans (kindAt?_eq_some_iff.2 ⟨lt, rfl⟩))
      exact past lt'
    rw [findFrom?, dif_neg none]

theorem nextSignificant?_congr (i : Nat) : ts.nextSignificant? i = ts'.nextSignificant? i :=
  findFrom?_congr kinds _ _ (i + 1)

theorem prevSignificant?_congr (i : Nat) : ts.prevSignificant? i = ts'.prevSignificant? i := by
  unfold prevSignificant?
  induction i with
  | zero => rfl
  | succ i ih => rw [findBefore?, findBefore?, kindSatisfies_congr kinds, ih]

end

section

variable {ts' : Tokens} (loud : ∀ i, ts.kindSatisfies (!·.isTrivia) i = ts'.kindSatisfies (!·.isTrivia) i)
include loud

/-- Where the same tokens are significant, the same ones follow. -/
theorem nextSignificant?_of_loud (i : Nat) : ts.nextSignificant? i = ts'.nextSignificant? i := by
  apply Option.ext
  intro j
  rw [nextSignificant?, nextSignificant?, findFrom?_eq_some_iff, findFrom?_eq_some_iff]
  simp only [loud]

theorem prevSignificant?_of_loud (i : Nat) : ts.prevSignificant? i = ts'.prevSignificant? i := by
  apply Option.ext
  intro j
  rw [prevSignificant?, prevSignificant?, findBefore?_eq_some_iff, findBefore?_eq_some_iff]
  simp only [loud]

end

/-! ## Groups -/

theorem groupEnd_of_noOpener (h : ts.kindAt? i = some kind) (single : kind.isOpener = false) : ts.groupEnd i = i := by
  rw [groupEnd, kindSatisfies_eq h, single, if_neg Bool.false_ne_true]

theorem groupStart_of_noCloser (h : ts.kindAt? i = some kind) (single : kind.isCloser = false) :
    ts.groupStart i = i := by
  rw [groupStart, kindSatisfies_eq h, single, if_neg Bool.false_ne_true]

theorem groupEnd_of_matching? {close : Nat} (h : ts.kindAt? i = some kind) (opener : kind.isOpener = true)
    (linked : ts.matching? i = some close) : ts.groupEnd i = close := by
  rw [groupEnd, kindSatisfies_eq h, opener, if_pos rfl, linked, Option.getD_some]

/-! ## Expressions -/

theorem expressionEnd?_of_ends (h : ts.kindAt? i = some kind) (ends : kind.endsExpression = true) :
    ts.expressionEnd? i = none := by
  obtain ⟨lt, same⟩ := kindAt?_eq_some_iff.1 h
  rw [expressionEnd?, dif_pos lt, same, if_pos ends]

/-- An expression goes on behind its first token, or group, as long as another expression starts
there. -/
theorem expressionEnd?_step {next : Nat} (h : ts.kindAt? i = some kind) (goes : kind.endsExpression = false)
    (behind : i ≤ ts.groupEnd i) (step : ts.stepForward? i = some next) :
    ts.expressionEnd? i = some ((ts.expressionEnd? next).getD (ts.groupEnd i)) := by
  obtain ⟨lt, same⟩ := kindAt?_eq_some_iff.1 h
  rw [stepForward?] at step
  rw [expressionEnd?, dif_pos lt, same, goes, if_neg Bool.false_ne_true]
  simp only [Nat.max_eq_left behind]
  split
  · rename_i found
    rw [Nat.max_eq_left behind, step] at found
    rw [Option.some.inj found]
  · rename_i found
    rw [Nat.max_eq_left behind, step] at found
    cases found

/-! ## Kinds and texts in a row -/

/-- The tokens from an index on have the given kinds and texts. -/
def ReadsAt (ts : Tokens) (k : Nat) (written : List (TokenKind × String)) : Prop :=
  ∀ (i : Nat) (kind : TokenKind) (text : String), written[i]? = some (kind, text) →
    ∃ t, ts[k + i]? = some t ∧ t.kind = kind ∧ t.text = text

namespace ReadsAt

variable {k : Nat} {written : List (TokenKind × String)} {text : String}

theorem kindAt? (h : ts.ReadsAt k written) (hi : written[i]? = some (kind, text)) : ts.kindAt? (k + i) = some kind := by
  obtain ⟨t, ht, same, -⟩ := h i kind text hi
  rw [Tokens.kindAt?, ht, ← same]
  rfl

theorem textAt (h : ts.ReadsAt k written) (hi : written[i]? = some (kind, text)) : ts.textAt (k + i) = text := by
  obtain ⟨t, ht, -, same⟩ := h i kind text hi
  rw [Tokens.textAt, ht, ← same]
  rfl

theorem left {others : List (TokenKind × String)} (h : ts.ReadsAt k (written ++ others)) : ts.ReadsAt k written :=
  fun i kind text hi =>
    h i kind text (by rw [List.getElem?_append_left (List.getElem?_eq_some_iff.1 hi).1, hi])

theorem right {others : List (TokenKind × String)} (h : ts.ReadsAt k (others ++ written)) :
    ts.ReadsAt (k + others.length) written := by
  intro i kind text hi
  have behind : (others ++ written)[others.length + i]? = some (kind, text) := by
    rw [List.getElem?_append_right (Nat.le_add_right _ _), Nat.add_sub_cancel_left, hi]
  rw [Nat.add_assoc]
  exact h (others.length + i) kind text behind

end ReadsAt

end PhpRename.Tokens
