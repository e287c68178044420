import Mathlib.Data.List.TakeWhile
import PhpRename.Lexer.Tokenize
import PhpRename.Token.Cursor

/-!
# Linked brackets

The links of the brackets of any source form a well-nested matching: a link goes both ways, between
an opener and a later closer of its shape, and two linked pairs are disjoint or one lies inside the
other (`tokenize_wellNested`). The matching is as large as the source allows: a closer without a link
finds every opener of its shape before it closed or dropped.

`Nesting.Turn` says what one token does to the nesting. What it does to the brackets that stand open
and to the pairs is one of three things, and `Brackets` is kept by each.
-/

set_option autoImplicit false

namespace PhpRename

namespace TokenKind

variable {k shape : TokenKind} {scope : ScopeKind}

theorem isOpener_of_scopeKind? (h : k.scopeKind? = some scope) : k.isOpener = false := by
  cases k <;> first | rfl | cases h

theorem opener?_of_scopeKind? (h : k.scopeKind? = some scope) : k.opener? = none := by
  cases k <;> first | rfl | cases h

theorem isOpener_of_closer (h : k.opener? = some shape) : k.isOpener = false := by
  cases k <;> first | rfl | cases h

theorem opener?_of_isOpener (h : k.isOpener = true) : k.opener? = none := by
  cases k <;> first | rfl | cases h

end TokenKind

/-- The token at `i` is linked to `j`. -/
def Tokens.Links (ts : Tokens) (i j : Nat) : Prop := ∃ t, ts[i]? = some t ∧ t.matching = some j

/-- Two pairs of indices, each smaller index first, that do not cross: one lies behind the other or
strictly inside it. -/
def Nests (p q : Nat × Nat) : Prop :=
  p.2 < q.1 ∨ q.2 < p.1 ∨ (p.1 < q.1 ∧ q.2 < p.2) ∨ (q.1 < p.1 ∧ p.2 < q.2)

theorem Nests.symm {p q : Nat × Nat} (h : Nests p q) : Nests q p := by
  unfold Nests at *
  omega

/-- Links that form a well-nested matching of brackets. -/
structure Tokens.WellNested (ts : Tokens) : Prop where
  bracket : ∀ i j, ts.Links i j → ts.kindSatisfies (fun k => k.isOpener || k.isCloser) i = true
  symm : ∀ i j, ts.Links i j → ts.Links j i
  ne : ∀ i j, ts.Links i j → i ≠ j
  shape : ∀ i j, ts.Links i j → i < j →
    ∃ opener closer, ts.kindAt? i = some opener ∧ ts.kindAt? j = some closer ∧ closer.opener? = some opener
  nested : ∀ i j k l, ts.Links i j → i < j → ts.Links k l → k < l → (i, j) = (k, l) ∨ Nests (i, j) (k, l)
  /-- An opener before a closer of its shape that has no link is in a pair that ends before that
  closer: it is linked, or it was dropped as unbalanced. -/
  maximal : ∀ i j opener closer, ts.kindAt? i = some opener → ts.kindAt? j = some closer →
    closer.opener? = some opener → i < j → (∀ k, ¬ ts.Links j k) → ∃ a b, ts.Links a b ∧ a ≤ i ∧ i < b ∧ b < j

namespace Tokens.WellNested

variable {ts : Tokens} (nested : ts.WellNested) {i j : Nat} {t : Token}
include nested

theorem lt_of_opener (linked : ts.Links i j) (token : ts[i]? = some t) (opens : t.kind.isOpener = true) : i < j := by
  by_contra behind
  have less : j < i := Nat.lt_of_le_of_ne (Nat.not_lt.1 behind) (nested.ne j i (nested.symm i j linked))
  obtain ⟨opener, closer, -, kind, shape⟩ := nested.shape j i (nested.symm i j linked) less
  rw [kindAt?, token] at kind
  obtain rfl : t.kind = closer := Option.some.inj kind
  rw [TokenKind.isOpener_of_closer shape] at opens
  cases opens

theorem lt_of_noOpener (linked : ts.Links i j) (token : ts[i]? = some t) (other : t.kind.isOpener = false) : j < i := by
  by_contra behind
  have less : i < j := Nat.lt_of_le_of_ne (Nat.not_lt.1 behind) (nested.ne i j linked)
  obtain ⟨opener, closer, kind, -, shape⟩ := nested.shape i j linked less
  rw [kindAt?, token] at kind
  obtain rfl : t.kind = opener := Option.some.inj kind
  rw [TokenKind.isOpener_of_opener? shape] at other
  cases other

/-- A link from inside a group leads to a place inside the group. -/
theorem inside {opening closing : Nat} (group : ts.Links opening closing) (order : opening < closing)
    (linked : ts.Links i j) (low : opening < i) (high : i < closing) : opening < j ∧ j < closing := by
  obtain forth | back := Nat.lt_or_gt_of_ne (nested.ne i j linked)
  · obtain same | apart := nested.nested _ _ _ _ group order linked forth
    · have := Prod.mk.inj same
      omega
    · unfold Nests at apart
      omega
  · obtain same | apart := nested.nested _ _ _ _ group order (nested.symm i j linked) back
    · have := Prod.mk.inj same
      omega
    · unfold Nests at apart
      omega

end Tokens.WellNested

namespace Lexer

/-! ## What a token does to the nesting -/

/-- The effects of a token on the nesting, one constructor for each. -/
inductive Nesting.Turn (n : Nesting) (index : Nat) (kind : TokenKind) : Nesting → Prop where
  | awaits (scope : ScopeKind) (owns : kind.scopeKind? = some scope) : Turn n index kind (n.await ⟨index, scope⟩)
  | closes (above : List Opened) (b : Opened) (outer : List Opened) (shape : kind.opener? = some b.kind)
      (split : n.opened = above ++ b :: outer) (nearest : ∀ x ∈ above, x.kind ≠ b.kind) :
      Turn n index kind
        { n with
          opened := outer
          pending := n.pending.dropWhile (fun p => outer.length < p.depth)
          pairs := (b.index, index) :: n.pairs }
  | strays (shape : TokenKind) (closes : kind.opener? = some shape) (none : ∀ x ∈ n.opened, x.kind ≠ shape) :
      Turn n index kind n
  | abandons (ends : kind = .semicolon) : Turn n index kind n.abandon
  | opensBody (brace : kind = .openBrace) : Turn n index kind (n.openBody index)
  | opensGroup (group : kind = .openParen ∨ kind = .openBracket) : Turn n index kind (n.openGroup index kind)
  | passes (noOpener : kind.isOpener = false) (noCloser : kind.opener? = none) : Turn n index kind n

theorem Nesting.step_turn (n : Nesting) (index : Nat) (kind : TokenKind) : n.Turn index kind (n.step index kind) := by
  unfold step
  split
  · rename_i scope owns
    exact .awaits scope owns
  split
  · rename_i shape closes
    rw [close]
    split
    · rename_i none
      refine .strays shape closes fun x hx => ?_
      have passed := List.dropWhile_eq_nil_iff.1 none x hx
      simpa using passed
    · rename_i b outer found
      have split : n.opened = n.opened.takeWhile (·.kind != shape) ++ b :: outer := by
        rw [← found, List.takeWhile_append_dropWhile]
      have same : b.kind = shape := by
        have stop := List.head?_dropWhile_not (·.kind != shape) n.opened
        rw [found] at stop
        simpa using stop
      subst same
      refine .closes _ b outer closes split fun x hx => ?_
      simpa using List.mem_takeWhile_imp hx
  · rename_i noCloser
    split
    · exact .abandons rfl
    · exact .opensBody rfl
    · exact .opensGroup (.inl rfl)
    · exact .opensGroup (.inr rfl)
    · refine .passes ?_ noCloser
      cases kind <;> first | rfl | contradiction

/-! ## Open brackets and pairs -/

/-- What holds of the brackets that stand open and of the pairs made so far, after tokens of the
given kinds. -/
structure Brackets (kinds : List TokenKind) (opened : List Opened) (pairs : List (Nat × Nat)) : Prop where
  opener : ∀ b ∈ opened, kinds[b.index]? = some b.kind ∧ b.kind.isOpener = true
  order : opened.Pairwise fun x y => y.index < x.index
  pair : ∀ p ∈ pairs, p.1 < p.2 ∧ ∃ opener closer,
    kinds[p.1]? = some opener ∧ kinds[p.2]? = some closer ∧ closer.opener? = some opener
  nested : ∀ p ∈ pairs, ∀ q ∈ pairs, p = q ∨ Nests p q
  outside : ∀ b ∈ opened, ∀ p ∈ pairs, b.index < p.1 ∨ p.2 < b.index
  covered : ∀ i opener, kinds[i]? = some opener → opener.isOpener = true →
    (∃ b ∈ opened, b.index = i) ∨ ∃ p ∈ pairs, p.1 ≤ i ∧ i < p.2
  maximal : ∀ i j opener closer, kinds[i]? = some opener → kinds[j]? = some closer →
    closer.opener? = some opener → i < j → (∀ p ∈ pairs, p.2 ≠ j) → ∃ p ∈ pairs, p.1 ≤ i ∧ i < p.2 ∧ p.2 < j

theorem getElem?_concat_cases {α : Type} {xs : List α} {x y : α} {i : Nat} (h : (xs ++ [x])[i]? = some y) :
    xs[i]? = some y ∨ (i = xs.length ∧ y = x) := by
  rcases Nat.lt_trichotomy i xs.length with lt | rfl | gt
  · rw [List.getElem?_append_left lt] at h
    exact .inl h
  · rw [List.getElem?_concat_length] at h
    exact .inr ⟨rfl, (Option.some.inj h).symm⟩
  · rw [List.getElem?_eq_none (by simp; omega)] at h
    cases h

theorem getElem?_concat {α : Type} {xs : List α} {y : α} {i : Nat} (h : xs[i]? = some y) (x : α) :
    (xs ++ [x])[i]? = some y := by
  rw [List.getElem?_append_left (List.getElem?_eq_some_iff.1 h).1, h]

theorem lt_of_getElem? {α : Type} {xs : List α} {y : α} {i : Nat} (h : xs[i]? = some y) : i < xs.length :=
  (List.getElem?_eq_some_iff.1 h).1

namespace Brackets

variable {kinds : List TokenKind} {opened : List Opened} {pairs : List (Nat × Nat)} {kind : TokenKind}

theorem start : Brackets [] [] [] := by
  constructor <;> simp

theorem index_lt (h : Brackets kinds opened pairs) {b : Opened} (mem : b ∈ opened) : b.index < kinds.length :=
  lt_of_getElem? (h.opener b mem).1

theorem pair_lt (h : Brackets kinds opened pairs) {p : Nat × Nat} (mem : p ∈ pairs) :
    p.1 < p.2 ∧ p.2 < kinds.length := by
  obtain ⟨less, _, _, -, closer, -⟩ := h.pair p mem
  exact ⟨less, lt_of_getElem? closer⟩

/-- Pairs stay pairs of brackets when a token is added. -/
theorem pair_concat (h : Brackets kinds opened pairs) (kind : TokenKind) : ∀ p ∈ pairs, p.1 < p.2 ∧
    ∃ opener closer, (kinds ++ [kind])[p.1]? = some opener ∧ (kinds ++ [kind])[p.2]? = some closer ∧
      closer.opener? = some opener := by
  intro p mem
  obtain ⟨less, opener, closer, hi, hj, shape⟩ := h.pair p mem
  exact ⟨less, opener, closer, getElem?_concat hi kind, getElem?_concat hj kind, shape⟩

/-- A token that neither opens nor closes a bracket leaves them as they are. -/
theorem keep (h : Brackets kinds opened pairs) (noOpener : kind.isOpener = false)
    (noMatch : ∀ shape, kind.opener? = some shape → ∀ b ∈ opened, b.kind ≠ shape) :
    Brackets (kinds ++ [kind]) opened pairs where
  opener b mem := ⟨getElem?_concat (h.opener b mem).1 kind, (h.opener b mem).2⟩
  order := h.order
  pair := h.pair_concat kind
  nested := h.nested
  outside := h.outside
  covered i opener hi open? := by
    obtain hi | ⟨-, rfl⟩ := getElem?_concat_cases hi
    · exact h.covered i opener hi open?
    · rw [noOpener] at open?
      cases open?
  maximal i j opener closer hi hj shape less unlinked := by
    obtain hj | ⟨rfl, rfl⟩ := getElem?_concat_cases hj
    · have hi : kinds[i]? = some opener := by
        obtain hi | ⟨rfl, -⟩ := getElem?_concat_cases hi
        · exact hi
        · exact absurd (lt_of_getElem? hj) (Nat.lt_asymm less)
      exact h.maximal i j opener closer hi hj shape less unlinked
    · obtain hi | ⟨rfl, -⟩ := getElem?_concat_cases hi
      · -- The stray closer finds the opener in a pair, since none of its shape stands open.
        obtain ⟨b, mem, rfl⟩ | ⟨p, mem, le, lt⟩ := h.covered i opener hi (TokenKind.isOpener_of_opener? shape)
        · have same : b.kind = opener := Option.some.inj ((h.opener b mem).1.symm.trans hi)
          exact absurd same (noMatch opener shape b mem)
        · exact ⟨p, mem, le, lt, (h.pair_lt mem).2⟩
      · exact absurd less (Nat.lt_irrefl _)

/-- An opener stands open above all others. -/
theorem opening (h : Brackets kinds opened pairs) (opens : kind.isOpener = true) (owner : Option ScopeOwner) :
    Brackets (kinds ++ [kind]) (⟨kinds.length, kind, owner⟩ :: opened) pairs := by
  constructor
  case opener =>
    intro b mem
    obtain rfl | mem := List.mem_cons.1 mem
    · exact ⟨List.getElem?_concat_length, opens⟩
    · exact ⟨getElem?_concat (h.opener b mem).1 kind, (h.opener b mem).2⟩
  case order => exact List.pairwise_cons.2 ⟨fun b mem => h.index_lt mem, h.order⟩
  case pair => exact h.pair_concat kind
  case nested => exact h.nested
  case outside =>
    intro b mem p hp
    obtain rfl | mem := List.mem_cons.1 mem
    · exact .inr (h.pair_lt hp).2
    · exact h.outside b mem p hp
  case covered =>
    intro i opener hi open?
    obtain hi | ⟨rfl, -⟩ := getElem?_concat_cases hi
    · refine (h.covered i opener hi open?).imp_left ?_
      rintro ⟨b, mem, same⟩
      exact ⟨b, List.mem_cons_of_mem _ mem, same⟩
    · exact .inl ⟨_, List.mem_cons_self .., rfl⟩
  case maximal =>
    intro i j opener closer hi hj shape less unlinked
    obtain hj | ⟨rfl, rfl⟩ := getElem?_concat_cases hj
    · obtain hi | ⟨rfl, -⟩ := getElem?_concat_cases hi
      · exact h.maximal i j opener closer hi hj shape less unlinked
      · exact absurd (lt_of_getElem? hj) (Nat.lt_asymm less)
    · rw [TokenKind.opener?_of_isOpener opens] at shape
      cases shape

/-- A closer pairs up with the nearest open bracket of its shape and drops what stands above. -/
theorem closing {above outer : List Opened} {b : Opened} (h : Brackets kinds (above ++ b :: outer) pairs)
    (shape : kind.opener? = some b.kind) :
    Brackets (kinds ++ [kind]) outer ((b.index, kinds.length) :: pairs) := by
  have mem_b : b ∈ above ++ b :: outer := by simp
  have mem_outer : ∀ x ∈ outer, x ∈ above ++ b :: outer := fun x mem => by simp [mem]
  have ordered := (List.pairwise_append.1 h.order).2
  have below : ∀ x ∈ outer, x.index < b.index := (List.pairwise_cons.1 ordered.1).1
  have higher : ∀ x ∈ above, b.index < x.index := fun x mem => ordered.2 x mem b (List.mem_cons_self ..)
  -- A pair made earlier lies behind the new one's opener, or before it.
  have fresh : ∀ p ∈ pairs, Nests (b.index, kinds.length) p := by
    intro p mem
    have apart := h.outside b mem_b p mem
    have bound := h.pair_lt mem
    unfold Nests
    omega
  constructor
  case opener => exact fun x mem => ⟨getElem?_concat (h.opener x (mem_outer x mem)).1 kind, (h.opener x (mem_outer x mem)).2⟩
  case order => exact (List.pairwise_cons.1 ordered.1).2
  case pair =>
    intro p mem
    obtain rfl | mem := List.mem_cons.1 mem
    · exact ⟨h.index_lt mem_b, b.kind, kind, getElem?_concat (h.opener b mem_b).1 kind, List.getElem?_concat_length, shape⟩
    · exact h.pair_concat kind p mem
  case nested =>
    intro p hp q hq
    obtain rfl | hp := List.mem_cons.1 hp
    · obtain rfl | hq := List.mem_cons.1 hq
      · exact .inl rfl
      · exact .inr (fresh q hq)
    · obtain rfl | hq := List.mem_cons.1 hq
      · exact .inr (fresh p hp).symm
      · exact h.nested p hp q hq
  case outside =>
    intro x mem p hp
    obtain rfl | hp := List.mem_cons.1 hp
    · exact .inl (below x mem)
    · exact h.outside x (mem_outer x mem) p hp
  case covered =>
    intro i opener hi open?
    obtain hi | ⟨-, rfl⟩ := getElem?_concat_cases hi
    · obtain ⟨x, mem, rfl⟩ | ⟨p, mem, cover⟩ := h.covered i opener hi open?
      · have bound := h.index_lt mem
        rcases List.mem_append.1 mem with mem | mem
        · exact .inr ⟨_, List.mem_cons_self .., Nat.le_of_lt (higher x mem), bound⟩
        · obtain rfl | mem := List.mem_cons.1 mem
          · exact .inr ⟨_, List.mem_cons_self .., Nat.le_refl _, bound⟩
          · exact .inl ⟨x, mem, rfl⟩
      · exact .inr ⟨p, List.mem_cons_of_mem _ mem, cover⟩
    · rw [TokenKind.isOpener_of_closer shape] at open?
      cases open?
  case maximal =>
    intro i j opener closer hi hj closes less unlinked
    obtain hj | ⟨rfl, -⟩ := getElem?_concat_cases hj
    · obtain hi | ⟨rfl, -⟩ := getElem?_concat_cases hi
      · obtain ⟨p, mem, cover⟩ := h.maximal i j opener closer hi hj closes less fun p mem =>
          unlinked p (List.mem_cons_of_mem _ mem)
        exact ⟨p, List.mem_cons_of_mem _ mem, cover⟩
      · exact absurd (lt_of_getElem? hj) (Nat.lt_asymm less)
    · exact absurd rfl (unlinked _ (List.mem_cons_self ..))

/-- One token keeps the brackets in order. -/
theorem step {n : Nesting} (h : Brackets kinds n.opened n.pairs) (kind : TokenKind) :
    Brackets (kinds ++ [kind]) (n.step kinds.length kind).opened (n.step kinds.length kind).pairs := by
  have turn := n.step_turn kinds.length kind
  generalize n.step kinds.length kind = m at turn ⊢
  cases turn with
  | awaits scope owns =>
    refine h.keep (TokenKind.isOpener_of_scopeKind? owns) fun shape closes => ?_
    rw [TokenKind.opener?_of_scopeKind? owns] at closes
    cases closes
  | closes above b outer shape split nearest =>
    rw [split] at h
    exact h.closing shape
  | strays shape closes none =>
    refine h.keep (TokenKind.isOpener_of_closer closes) fun other same => ?_
    rw [closes] at same
    cases same
    exact none
  | abandons ends =>
    subst ends
    exact h.keep rfl fun shape closes => by cases closes
  | opensBody brace =>
    subst brace
    exact h.opening rfl _
  | opensGroup group =>
    refine h.opening ?_ none
    rcases group with rfl | rfl <;> rfl
  | passes noOpener noCloser =>
    refine h.keep noOpener fun shape closes => ?_
    rw [noCloser] at closes
    cases closes

/-- Two pairs that share an index are the same pair. -/
theorem eq_of_shared (h : Brackets kinds opened pairs) {p q : Nat × Nat} (hp : p ∈ pairs) (hq : q ∈ pairs)
    (shared : p.1 = q.1 ∨ p.1 = q.2 ∨ p.2 = q.1 ∨ p.2 = q.2) : p = q := by
  have := h.pair_lt hp
  have := h.pair_lt hq
  refine (h.nested p hp q hq).resolve_right fun apart => ?_
  unfold Nests at apart
  omega

end Brackets

/-! ## The sweep -/

/-- The kinds of the tokens of a sweep. -/
def Sweep.kinds (s : Sweep) : List TokenKind := s.tokens.toList.map Token.kind

theorem Sweep.kinds_push (s : Sweep) (l : Lexeme) : (s.push l).kinds = s.kinds ++ [l.kind] := by
  simp [Sweep.kinds, Sweep.push]

theorem Sweep.length_kinds (s : Sweep) : s.kinds.length = s.tokens.size := by
  simp [Sweep.kinds]

theorem Brackets.push {s : Sweep} (h : Brackets s.kinds s.nesting.opened s.nesting.pairs) (l : Lexeme) :
    Brackets (s.push l).kinds (s.push l).nesting.opened (s.push l).nesting.pairs := by
  have next := h.step l.kind
  rw [s.length_kinds] at next
  rw [s.kinds_push]
  exact next

/-- The sweep keeps the brackets in order. -/
theorem Brackets.foldl (ls : List Lexeme) {s : Sweep} (h : Brackets s.kinds s.nesting.opened s.nesting.pairs) :
    Brackets (ls.foldl Sweep.push s).kinds (ls.foldl Sweep.push s).nesting.opened
      (ls.foldl Sweep.push s).nesting.pairs := by
  induction ls generalizing s with
  | nil => exact h
  | cons l ls ih => exact ih (h.push l)

/-- The sweep over all lexemes of a source. -/
def sweep (source : Bytes) : Sweep := (lexemes source).foldl Sweep.push {}

theorem sweep_brackets (source : Bytes) :
    Brackets (sweep source).kinds (sweep source).nesting.opened (sweep source).nesting.pairs :=
  Brackets.start.foldl (s := {}) (lexemes source)

/-- A look-up finds what the list holds, when no key has two values in it. -/
theorem lookup_eq_some_iff_mem {l : List (Nat × Nat)} (unique : ∀ i j k, (i, j) ∈ l → (i, k) ∈ l → j = k)
    {i j : Nat} : l.lookup i = some j ↔ (i, j) ∈ l := by
  have found : ∀ k, l.lookup i = some k → (i, k) ∈ l := by
    intro k hk
    obtain ⟨before, behind, rfl, -⟩ := List.lookup_eq_some_iff.1 hk
    simp
  refine ⟨found j, fun mem => ?_⟩
  cases look : l.lookup i with
  | none =>
    have none := List.lookup_eq_none_iff.1 look (i, j) mem
    simp at none
  | some k => rw [unique i j k mem (found k look)]

theorem Nesting.mem_links {n : Nesting} {i j : Nat} : (i, j) ∈ n.links ↔ (i, j) ∈ n.pairs ∨ (j, i) ∈ n.pairs := by
  rw [links, List.mem_flatMap]
  constructor
  · rintro ⟨p, mem, here⟩
    obtain rfl | here := List.mem_cons.1 here
    · exact .inl mem
    · obtain swapped := List.mem_singleton.1 here
      rw [← Prod.swap_swap p, ← swapped] at mem
      exact .inr mem
  · rintro (mem | mem)
    · exact ⟨_, mem, by simp⟩
    · exact ⟨_, mem, by simp⟩

/-- The links of the brackets are the pairs, in both directions. -/
theorem Brackets.partner?_iff {kinds : List TokenKind} {n : Nesting} (h : Brackets kinds n.opened n.pairs)
    {i j : Nat} : n.partner? i = some j ↔ (i, j) ∈ n.pairs ∨ (j, i) ∈ n.pairs := by
  rw [Nesting.partner?, lookup_eq_some_iff_mem, Nesting.mem_links]
  intro i j k hj hk
  rw [Nesting.mem_links] at hj hk
  rcases hj with hj | hj <;> rcases hk with hk | hk
  · exact (Prod.mk.inj (h.eq_of_shared hj hk (.inl rfl))).2
  · have same := Prod.mk.inj (h.eq_of_shared hj hk (.inr (.inl rfl)))
    omega
  · have same := Prod.mk.inj (h.eq_of_shared hj hk (.inr (.inr (.inl rfl))))
    omega
  · exact (Prod.mk.inj (h.eq_of_shared hj hk (.inr (.inr (.inr rfl))))).1

/-- A token of a source is the one of the sweep, with its links. -/
theorem getElem?_tokenize (source : Bytes) (i : Nat) :
    (tokenize source)[i]? = (sweep source).tokens[i]?.map fun t =>
      { t with
        matching := (sweep source).nesting.partner? i
        scopeOpener := (sweep source).nesting.body? i } := by
  rw [tokenize, Sweep.linked_eq, Array.getElem?_mapIdx]
  rfl

theorem kindAt?_tokenize (source : Bytes) (i : Nat) : (tokenize source).kindAt? i = (sweep source).kinds[i]? := by
  rw [Tokens.kindAt?, getElem?_tokenize, Sweep.kinds, List.getElem?_map, Array.getElem?_toList, Option.map_map]
  rfl

theorem links_tokenize {source : Bytes} {i j : Nat} :
    (tokenize source).Links i j ↔ (i, j) ∈ (sweep source).nesting.pairs ∨ (j, i) ∈ (sweep source).nesting.pairs := by
  have brackets := sweep_brackets source
  rw [← brackets.partner?_iff, Tokens.Links, getElem?_tokenize]
  constructor
  · rintro ⟨t, ht, linked⟩
    obtain ⟨u, -, rfl⟩ := Option.map_eq_some_iff.1 ht
    exact linked
  · intro linked
    have bound : i < (sweep source).tokens.size := by
      rw [← Sweep.length_kinds]
      rcases brackets.partner?_iff.1 linked with mem | mem
      · have := brackets.pair_lt mem
        omega
      · exact (brackets.pair_lt mem).2
    exact ⟨_, by rw [Array.getElem?_eq_getElem bound]; rfl, linked⟩

section

variable {ts : Tokens} {kinds : List TokenKind} {opened : List Opened} {pairs : List (Nat × Nat)}
  (h : Brackets kinds opened pairs) (links : ∀ i j, ts.Links i j ↔ (i, j) ∈ pairs ∨ (j, i) ∈ pairs)
include h links

/-- A link from a smaller index is a pair. -/
theorem Brackets.mem_of_links {i j : Nat} (linked : ts.Links i j) (less : i < j) : (i, j) ∈ pairs := by
  refine ((links i j).1 linked).resolve_right fun mem => ?_
  have := h.pair_lt mem
  omega

/-- Tokens of these kinds that are linked as the pairs say have a well-nested matching. -/
theorem Brackets.wellNested (kind : ∀ i, ts.kindAt? i = kinds[i]?) : ts.WellNested := by
  constructor
  case bracket =>
    intro i j linked
    rw [Tokens.kindSatisfies, kind]
    rcases (links i j).1 linked with mem | mem
    · obtain ⟨-, opener, closer, hi, -, shape⟩ := h.pair _ mem
      rw [hi, Option.any_some, TokenKind.isOpener_of_opener? shape, Bool.true_or]
    · obtain ⟨-, opener, closer, -, hi, shape⟩ := h.pair _ mem
      rw [hi, Option.any_some, (TokenKind.isCloser_iff_opener? closer).2 (by rw [shape]; rfl), Bool.or_true]
  case symm => exact fun i j linked => (links j i).2 ((links i j).1 linked).symm
  case ne =>
    intro i j linked
    rcases (links i j).1 linked with mem | mem
    · exact Nat.ne_of_lt (h.pair_lt mem).1
    · exact Nat.ne_of_gt (h.pair_lt mem).1
  case shape =>
    intro i j linked less
    rw [kind, kind]
    exact (h.pair _ (h.mem_of_links links linked less)).2
  case nested =>
    intro i j k l linked less linked' less'
    exact h.nested _ (h.mem_of_links links linked less) _ (h.mem_of_links links linked' less')
  case maximal =>
    intro i j opener closer hi hj shape less unlinked
    rw [kind] at hi hj
    obtain ⟨⟨a, b⟩, mem, cover⟩ := h.maximal i j opener closer hi hj shape less fun p mem same => by
      subst same
      exact unlinked p.1 ((links p.2 p.1).2 (.inr mem))
    exact ⟨a, b, (links a b).2 (.inl mem), cover⟩

end

theorem mem_pairs_of_links {source : Bytes} {i j : Nat} (linked : (tokenize source).Links i j) (less : i < j) :
    (i, j) ∈ (sweep source).nesting.pairs :=
  (sweep_brackets source).mem_of_links (fun _ _ => links_tokenize) linked less

/-- **Brackets nest.** The links of the brackets of a source form a well-nested matching, and a closer
stays without a link only when no opener of its shape stands open before it. -/
theorem tokenize_wellNested (source : Bytes) : (tokenize source).WellNested :=
  (sweep_brackets source).wellNested (fun _ _ => links_tokenize) (kindAt?_tokenize source)

end Lexer

end PhpRename
