import PhpRename.Proofs.Lexer.Matching

/-!
# Scopes around tokens

The conditions of a token are the owners of the scopes around it: each has a brace before the token
that opens its scope and that is not closed up to the token, and every token between the brace of an
owner and its closer has that owner among its conditions (`tokenize_scoped`).

Three facts are carried along the tokens. `Waiting` says where the pending owners stand among the
open brackets, `Owned` ties the open braces to the owners of their scopes, and `Surrounded` ties both
to the conditions of the tokens so far.
-/

set_option autoImplicit false

namespace PhpRename

namespace Tokens

/-- The token at `brace` opens the scope of the token at `owner`. -/
def Opens (ts : Tokens) (owner brace : Nat) : Prop := ∃ t, ts[owner]? = some t ∧ t.scopeOpener = some brace

/-- The token at the index of an owner owns scopes of its kind. -/
def Owns (ts : Tokens) (o : ScopeOwner) : Prop := (ts.kindAt? o.index).bind TokenKind.scopeKind? = some o.kind

/-- Conditions that name the scopes around each token, outermost first. -/
structure Scoped (ts : Tokens) : Prop where
  sound : ∀ (t : Nat) (token : Token), ts[t]? = some token → ∀ o ∈ token.conditions, 0 < o.index ∧ ts.Owns o ∧
    ∃ b, ts.Opens o.index b ∧ ts.isAt .openBrace b = true ∧ o.index < b ∧ b < t ∧ ∀ e, ts.Links b e → t < e
  complete : ∀ o b e t, ts.Opens o b → ts.Links b e → b < t → t < e →
    ∃ (token : Token) (kind : ScopeKind), ts[t]? = some token ∧ ts.Owns ⟨o, kind⟩ ∧ ⟨o, kind⟩ ∈ token.conditions
  ordered : ∀ (t : Nat) (token : Token), ts[t]? = some token → token.conditions.Pairwise fun o p => o.index < p.index
  injective : ∀ o p b, ts.Opens o b → ts.Opens p b → o = p
  positive : ∀ o b, ts.Opens o b → 0 < o

end Tokens

namespace Lexer

/-- The owner is one of the tokens of the given kinds. -/
def Owns (kinds : List TokenKind) (o : ScopeOwner) : Prop := kinds[o.index]?.bind TokenKind.scopeKind? = some o.kind

section

variable {kinds : List TokenKind} {n : Nesting} {kind : TokenKind}

theorem Owns.lt {o : ScopeOwner} (h : Owns kinds o) : o.index < kinds.length := by
  obtain ⟨k, hk, -⟩ := Option.bind_eq_some_iff.1 h
  exact lt_of_getElem? hk

theorem Owns.concat {o : ScopeOwner} (h : Owns kinds o) (kind : TokenKind) : Owns (kinds ++ [kind]) o := by
  obtain ⟨k, hk, owns⟩ := Option.bind_eq_some_iff.1 h
  rw [Owns, getElem?_concat hk]
  exact owns

/-! ## Pending owners -/

/-- An owner waits at the present depth, or none does. -/
theorem Nesting.waiting_cases (n : Nesting) :
    (∃ o, n.waiting? = some o ∧ n.pending = ⟨o, n.depth⟩ :: n.abandoned) ∨
      n.waiting? = none ∧ n.abandoned = n.pending ∧ ∀ p ∈ n.pending.head?, p.depth ≠ n.depth := by
  cases hp : n.pending with
  | nil => exact .inr (by simp [waiting?, abandoned, hp])
  | cons p rest =>
    by_cases same : p.depth = n.depth
    · refine .inl ⟨p.owner, ?_, ?_⟩
      · simp [waiting?, hp, same]
      · simp [waiting?, abandoned, hp, ← same]
    · exact .inr (by simp [waiting?, abandoned, hp, same])

/-- Where the pending owners stand: innermost first, each behind the brackets that are open around
it, and none with a scope. -/
structure Waiting (kinds : List TokenKind) (n : Nesting) : Prop where
  order : n.pending.Pairwise fun p q => q.depth < p.depth ∧ q.owner.index < p.owner.index
  depth : ∀ p ∈ n.pending, p.depth ≤ n.opened.length
  owner : ∀ p ∈ n.pending, Owns kinds p.owner
  behind : ∀ p ∈ n.pending, ∀ x ∈ n.opened.drop (n.opened.length - p.depth), x.index < p.owner.index
  free : ∀ p ∈ n.pending, ∀ q ∈ n.bodies, q.1 ≠ p.owner.index

namespace Waiting

theorem concat (h : Waiting kinds n) (kind : TokenKind) : Waiting (kinds ++ [kind]) n :=
  { h with owner := fun p mem => (h.owner p mem).concat kind }

theorem abandoned_subset (n : Nesting) : n.abandoned.Sublist n.pending := by
  rw [Nesting.abandoned]
  split
  · exact List.tail_sublist _
  · exact List.Sublist.refl _

/-- An owner that still waits, once the one at the present depth gave up, waits farther out. -/
theorem lt_depth (h : Waiting kinds n) {p : Pending} (mem : p ∈ n.abandoned) : p.depth < n.depth := by
  have le : ∀ q ∈ n.pending, q.depth ≤ n.depth := h.depth
  have order := h.order
  obtain ⟨o, -, pending⟩ | ⟨-, pending, top⟩ := n.waiting_cases
  · rw [pending, List.pairwise_cons] at order
    exact (order.1 p mem).1
  · rw [pending] at mem
    cases hp : n.pending with
    | nil =>
      rw [hp] at mem
      cases mem
    | cons q rest =>
      rw [hp] at mem order le
      have ne := top q (by rw [hp]; rfl)
      have first := le q (List.mem_cons_self ..)
      obtain rfl | mem := List.mem_cons.1 mem
      · omega
      · have := ((List.pairwise_cons.1 order).1 p mem).1
        omega

/-- Owners that give up leave the others as they are. -/
theorem sublist (h : Waiting kinds n) {pending : List Pending} (sub : pending.Sublist n.pending) :
    Waiting kinds { n with pending := pending } where
  order := h.order.sublist sub
  depth p mem := h.depth p (sub.subset mem)
  owner p mem := h.owner p (sub.subset mem)
  behind p mem := h.behind p (sub.subset mem)
  free p mem := h.free p (sub.subset mem)

theorem await (h : Waiting kinds n) (brackets : Brackets kinds n.opened n.pairs)
    (bodies : ∀ q ∈ n.bodies, q.1 < kinds.length) {scope : ScopeKind} (owns : kind.scopeKind? = some scope) :
    Waiting (kinds ++ [kind]) (n.await ⟨kinds.length, scope⟩) := by
  have rest := (h.sublist (abandoned_subset n)).concat kind
  constructor
  case order =>
    refine List.pairwise_cons.2 ⟨fun p mem => ⟨h.lt_depth mem, ?_⟩, rest.order⟩
    exact (h.owner p ((abandoned_subset n).subset mem)).lt
  case depth =>
    intro p mem
    obtain rfl | mem := List.mem_cons.1 mem
    · exact Nat.le_refl _
    · exact rest.depth p mem
  case owner =>
    intro p mem
    obtain rfl | mem := List.mem_cons.1 mem
    · rw [Owns, List.getElem?_concat_length]
      exact owns
    · exact rest.owner p mem
  case behind =>
    intro p mem x hx
    obtain rfl | mem := List.mem_cons.1 mem
    · exact brackets.index_lt (List.mem_of_mem_drop hx)
    · exact rest.behind p mem x hx
  case free =>
    intro p mem q hq
    obtain rfl | mem := List.mem_cons.1 mem
    · exact Nat.ne_of_lt (bodies q hq)
    · exact rest.free p mem q hq

/-- Below a new bracket, the open brackets around a pending owner are the same. -/
theorem opening (h : Waiting kinds n) (x : Opened) : Waiting kinds { n with opened := x :: n.opened } where
  order := h.order
  depth p mem := Nat.le_succ_of_le (h.depth p mem)
  owner := h.owner
  behind p mem y hy := by
    have le := h.depth p mem
    refine h.behind p mem y ?_
    simpa [show n.opened.length + 1 - p.depth = n.opened.length - p.depth + 1 by omega] using hy
  free := h.free

theorem openBody (h : Waiting kinds n) (index : Nat) : Waiting kinds (n.openBody index) := by
  have rest := (h.sublist (abandoned_subset n)).opening ⟨index, .openBrace, n.waiting?⟩
  refine { rest with free := fun p mem q hq => ?_ }
  rcases List.mem_append.1 hq with hq | hq
  · obtain ⟨o, waits, pending⟩ | ⟨none, -⟩ := n.waiting_cases
    · have order := h.order
      rw [pending, List.pairwise_cons] at order
      rw [waits] at hq
      obtain rfl := List.mem_singleton.1 hq
      exact Nat.ne_of_gt (order.1 p mem).2
    · rw [none] at hq
      cases hq
  · exact rest.free p mem q hq

theorem depth_le_of_mem_dropWhile {pending : List Pending} {d : Nat}
    (order : pending.Pairwise fun p q => q.depth < p.depth ∧ q.owner.index < p.owner.index) {p : Pending}
    (mem : p ∈ pending.dropWhile (fun p => d < p.depth)) : p.depth ≤ d := by
  induction pending with
  | nil => cases mem
  | cons q rest ih =>
    obtain ⟨first, order⟩ := List.pairwise_cons.1 order
    rw [List.dropWhile_cons] at mem
    split at mem
    · exact ih order mem
    · rename_i inside
      have inside : ¬ d < q.depth := by simpa using inside
      obtain rfl | mem := List.mem_cons.1 mem
      · omega
      · have := (first p mem).1
        omega

theorem closing (h : Waiting kinds n) {above outer : List Opened} {b : Opened} (pairs : List (Nat × Nat))
    (split : n.opened = above ++ b :: outer) :
    Waiting kinds
      { n with
        opened := outer
        pending := n.pending.dropWhile (fun p => outer.length < p.depth)
        pairs := pairs } := by
  have sub := List.dropWhile_sublist (l := n.pending) (fun p => decide (outer.length < p.depth))
  have inner := fun p (mem : p ∈ _) => depth_le_of_mem_dropWhile (d := outer.length) (p := p) h.order mem
  refine { h.sublist sub with depth := inner, behind := fun p mem x hx => ?_ }
  have le := inner p mem
  have around : n.opened.drop (n.opened.length - p.depth) = outer.drop (outer.length - p.depth) := by
    have length : n.opened.length = above.length + 1 + outer.length := by
      rw [split, List.length_append, List.length_cons]
      omega
    rw [length, split, show above.length + 1 + outer.length - p.depth = above.length + (1 + (outer.length - p.depth)) by omega,
      ← List.drop_drop, List.drop_left, Nat.add_comm, List.drop_succ_cons]
  exact h.behind p (sub.subset mem) x (by rw [around]; exact hx)

end Waiting

/-! ## Owners of open braces -/

/-- The braces that open scopes, and the owners that they belong to. -/
structure Owned (kinds : List TokenKind) (n : Nesting) : Prop where
  body : ∀ q ∈ n.bodies, q.1 < q.2 ∧ kinds[q.2]? = some .openBrace ∧ ∃ kind, Owns kinds ⟨q.1, kind⟩
  unique : ∀ p ∈ n.bodies, ∀ q ∈ n.bodies, p.1 = q.1 ∨ p.2 = q.2 → p = q
  opener : ∀ x ∈ n.opened, ∀ o ∈ x.owner, Owns kinds o ∧ (o.index, x.index) ∈ n.bodies
  owner : ∀ x ∈ n.opened, ∀ q ∈ n.bodies, q.2 = x.index → ∃ o, x.owner = some o ∧ o.index = q.1
  nested : n.opened.Pairwise fun x y => ∀ o ∈ x.owner, y.index < o.index

namespace Owned

theorem body_lt (h : Owned kinds n) {q : Nat × Nat} (mem : q ∈ n.bodies) : q.1 < q.2 ∧ q.2 < kinds.length :=
  ⟨(h.body q mem).1, lt_of_getElem? (h.body q mem).2.1⟩

theorem concat (h : Owned kinds n) (kind : TokenKind) : Owned (kinds ++ [kind]) n :=
  { h with
    body := fun q mem => by
      obtain ⟨less, brace, owner, owns⟩ := h.body q mem
      exact ⟨less, getElem?_concat brace kind, owner, owns.concat kind⟩
    opener := fun x mem o ho => ⟨(h.opener x mem o ho).1.concat kind, (h.opener x mem o ho).2⟩ }

/-- Closing brackets leaves the owners of the others. -/
theorem sublist (h : Owned kinds n) {opened : List Opened} (sub : opened.Sublist n.opened) (pending : List Pending)
    (pairs : List (Nat × Nat)) : Owned kinds { n with opened := opened, pending := pending, pairs := pairs } where
  body := h.body
  unique := h.unique
  opener x mem := h.opener x (sub.subset mem)
  owner x mem := h.owner x (sub.subset mem)
  nested := h.nested.sublist sub

/-- A bracket without an owner opens no scope. -/
theorem openGroup (h : Owned kinds n) (kind : TokenKind) : Owned (kinds ++ [kind]) (n.openGroup kinds.length kind) := by
  have old := h.concat kind
  refine { old with opener := fun x mem o ho => ?_, owner := fun x mem q hq same => ?_, nested := ?_ }
  · obtain rfl | mem := List.mem_cons.1 mem
    · cases ho
    · exact old.opener x mem o ho
  · obtain rfl | mem := List.mem_cons.1 mem
    · exact absurd same (Nat.ne_of_lt (h.body_lt hq).2)
    · exact old.owner x mem q hq same
  · exact List.pairwise_cons.2 ⟨fun y mem o ho => (by cases ho), h.nested⟩

theorem mem_bodies_openBody {index : Nat} {q : Nat × Nat} :
    q ∈ (n.openBody index).bodies ↔ (∃ o ∈ n.waiting?, q = (o.index, index)) ∨ q ∈ n.bodies := by
  rw [Nesting.openBody, List.mem_append]
  refine or_congr_left ?_
  cases n.waiting? with
  | none => simp
  | some o => simp

/-- A brace opens the scope of the owner that waits at its depth. -/
theorem openBody (h : Owned kinds n) (brackets : Brackets kinds n.opened n.pairs) (waiting : Waiting kinds n) :
    Owned (kinds ++ [.openBrace]) (n.openBody kinds.length) := by
  have old := h.concat .openBrace
  -- The owner that waits has no scope yet and stands behind every open bracket.
  have fresh : ∀ o ∈ n.waiting?, Owns kinds o ∧ (∀ q ∈ n.bodies, q.1 ≠ o.index) ∧ ∀ y ∈ n.opened, y.index < o.index := by
    intro o ho
    obtain ⟨o', waits, pending⟩ | ⟨none, -⟩ := n.waiting_cases
    · rw [waits] at ho
      cases ho
      have mem : ⟨o, n.depth⟩ ∈ n.pending := by
        rw [pending]
        exact List.mem_cons_self ..
      have behind := waiting.behind _ mem
      rw [show n.opened.length - n.depth = 0 from Nat.sub_self _] at behind
      exact ⟨waiting.owner _ mem, waiting.free _ mem, behind⟩
    · rw [none] at ho
      cases ho
  constructor
  case body =>
    intro q mem
    obtain ⟨o, ho, rfl⟩ | mem := mem_bodies_openBody.1 mem
    · exact ⟨(fresh o ho).1.lt, List.getElem?_concat_length, o.kind, (fresh o ho).1.concat _⟩
    · exact old.body q mem
  case unique =>
    intro p hp q hq same
    obtain ⟨o, ho, rfl⟩ | hp := mem_bodies_openBody.1 hp
    · obtain ⟨o', ho', rfl⟩ | hq := mem_bodies_openBody.1 hq
      · rw [Option.mem_unique ho ho']
      · rcases same with same | same
        · exact absurd same.symm ((fresh o ho).2.1 q hq)
        · exact absurd same.symm (Nat.ne_of_lt (h.body_lt hq).2)
    · obtain ⟨o', ho', rfl⟩ | hq := mem_bodies_openBody.1 hq
      · rcases same with same | same
        · exact absurd same ((fresh o' ho').2.1 p hp)
        · exact absurd same (Nat.ne_of_lt (h.body_lt hp).2)
      · exact h.unique p hp q hq same
  case opener =>
    intro x mem o ho
    rw [mem_bodies_openBody]
    obtain rfl | mem := List.mem_cons.1 mem
    · exact ⟨(fresh o ho).1.concat _, .inl ⟨o, ho, rfl⟩⟩
    · exact ⟨(old.opener x mem o ho).1, .inr (old.opener x mem o ho).2⟩
  case owner =>
    intro x mem q hq same
    obtain ⟨o, ho, rfl⟩ | hq := mem_bodies_openBody.1 hq
    · obtain rfl | mem := List.mem_cons.1 mem
      · exact ⟨o, ho, rfl⟩
      · exact absurd same (Nat.ne_of_gt (brackets.index_lt mem))
    · obtain rfl | mem := List.mem_cons.1 mem
      · exact absurd same (Nat.ne_of_lt (h.body_lt hq).2)
      · exact h.owner x mem q hq same
  case nested => exact List.pairwise_cons.2 ⟨fun y mem o ho => (fresh o ho).2.2 y mem, h.nested⟩

end Owned

/-! ## Scopes -/

theorem Nesting.mem_scopes {n : Nesting} {o : ScopeOwner} : o ∈ n.scopes ↔ ∃ x ∈ n.opened, x.owner = some o := by
  rw [scopes, List.mem_reverse, List.mem_filterMap]

/-- Owners of open scopes come outermost first. -/
theorem Owned.scopes_ordered (h : Owned kinds n) : n.scopes.Pairwise fun o p => o.index < p.index := by
  rw [Nesting.scopes, List.pairwise_reverse, List.pairwise_filterMap]
  refine h.nested.imp_of_mem fun {x y} _ hy nested o ho p hp => ?_
  have outer := (h.body_lt (h.opener y hy p hp).2).1
  have inner := nested o ho
  simp only at outer
  omega

/-- A turn adds to scopes and pairs, and only brackets and closers at its own index. -/
structure Nesting.Extends (n : Nesting) (index : Nat) (kind : TokenKind) (m : Nesting) : Prop where
  keeps : ∀ q ∈ n.bodies, q ∈ m.bodies
  body : ∀ q ∈ m.bodies, q ∈ n.bodies ∨ q.2 = index
  opened : ∀ x ∈ m.opened, x ∈ n.opened ∨ x.index = index ∧ kind.isOpener = true
  pair : ∀ p ∈ m.pairs, p ∈ n.pairs ∨ p.2 = index ∧ ∃ b ∈ n.opened, p.1 = b.index ∧ kind.opener? = some b.kind

theorem Nesting.Extends.refl (n : Nesting) (index : Nat) (kind : TokenKind) : n.Extends index kind n :=
  ⟨fun _ mem => mem, fun _ mem => .inl mem, fun _ mem => .inl mem, fun _ mem => .inl mem⟩

theorem Nesting.Turn.extends {m : Nesting} {index : Nat} (turn : n.Turn index kind m) : n.Extends index kind m := by
  cases turn with
  | awaits => exact { Extends.refl n index kind with }
  | closes above b outer shape split nearest =>
    constructor
    case keeps => exact fun q mem => mem
    case body => exact fun q mem => .inl mem
    case opened =>
      intro x mem
      rw [split]
      exact .inl (by simp [mem])
    case pair =>
      intro p mem
      obtain rfl | mem := List.mem_cons.1 mem
      · exact .inr ⟨rfl, b, by rw [split]; simp, rfl, shape⟩
      · exact .inl mem
  | strays => exact .refl n index kind
  | abandons => exact { Extends.refl n index kind with }
  | opensBody brace =>
    constructor
    case keeps => exact fun q mem => Owned.mem_bodies_openBody.2 (.inr mem)
    case body =>
      intro q mem
      obtain ⟨o, -, rfl⟩ | mem := Owned.mem_bodies_openBody.1 mem
      · exact .inr rfl
      · exact .inl mem
    case opened =>
      intro x mem
      obtain rfl | mem := List.mem_cons.1 mem
      · exact .inr ⟨rfl, by rw [brace]; rfl⟩
      · exact .inl mem
    case pair => exact fun p mem => .inl mem
  | opensGroup group =>
    refine { Extends.refl n index kind with opened := fun x mem => ?_ }
    obtain rfl | mem := List.mem_cons.1 mem
    · refine .inr ⟨rfl, ?_⟩
      rcases group with rfl | rfl <;> rfl
    · exact .inl mem
  | passes => exact .refl n index kind

/-! ## Conditions of tokens -/

end

/-- The conditions of the tokens so far: each owner has a brace before the token that is not closed
up to it, and whatever is inside a scope, open or closed, has its owner. -/
structure Surrounded (s : Sweep) : Prop where
  sound : ∀ (t : Nat) (token : Token), s.tokens[t]? = some token → ∀ o ∈ token.conditions, Owns s.kinds o ∧
    ∃ b, (o.index, b) ∈ s.nesting.bodies ∧ b < t ∧ ∀ p ∈ s.nesting.pairs, p.1 = b → t < p.2
  ordered : ∀ (t : Nat) (token : Token), s.tokens[t]? = some token →
    token.conditions.Pairwise fun o p => o.index < p.index
  inside : ∀ x ∈ s.nesting.opened, ∀ o ∈ x.owner, ∀ (t : Nat) (token : Token), s.tokens[t]? = some token →
    x.index < t → o ∈ token.conditions
  closed : ∀ q ∈ s.nesting.bodies, ∀ p ∈ s.nesting.pairs, p.1 = q.2 → ∀ (t : Nat) (token : Token),
    s.tokens[t]? = some token → p.1 < t → t < p.2 → ∃ o ∈ token.conditions, o.index = q.1

/-- What holds of a sweep after every token. -/
structure Sweep.InOrder (s : Sweep) : Prop where
  brackets : Brackets s.kinds s.nesting.opened s.nesting.pairs
  waiting : Waiting s.kinds s.nesting
  owned : Owned s.kinds s.nesting
  surrounded : Surrounded s

namespace Sweep

theorem InOrder.start : InOrder {} := by
  refine ⟨Brackets.start, ?_, ?_, ?_⟩
  · constructor <;> simp
  · constructor <;> simp
  · constructor <;> simp

variable {s : Sweep}

theorem getElem?_push_cases {l : Lexeme} {t : Nat} {token : Token} (h : (s.push l).tokens[t]? = some token) :
    (t < s.tokens.size ∧ s.tokens[t]? = some token) ∨
      t = s.tokens.size ∧ token.conditions = s.nesting.scopesAt s.tokens.size l.kind := by
  rw [Sweep.push, Array.getElem?_push] at h
  split at h
  · cases h
    exact .inr ⟨‹_›, rfl⟩
  · exact .inl ⟨(Array.getElem?_eq_some_iff.1 h).1, h⟩

theorem InOrder.waiting_push (h : s.InOrder) (l : Lexeme) : Waiting (s.push l).kinds (s.push l).nesting := by
  rw [s.kinds_push, Sweep.push, ← s.length_kinds]
  have turn := s.nesting.step_turn s.kinds.length l.kind
  generalize s.nesting.step s.kinds.length l.kind = m at turn ⊢
  cases turn with
  | awaits scope owns =>
    refine h.waiting.await h.brackets (fun q mem => ?_) owns
    exact Nat.lt_trans (h.owned.body_lt mem).1 (h.owned.body_lt mem).2
  | closes above b outer shape split nearest => exact (h.waiting.closing _ split).concat l.kind
  | strays => exact h.waiting.concat l.kind
  | abandons => exact (h.waiting.sublist (Waiting.abandoned_subset _)).concat l.kind
  | opensBody => exact (h.waiting.openBody _).concat l.kind
  | opensGroup => exact (h.waiting.opening _).concat l.kind
  | passes => exact h.waiting.concat l.kind

theorem InOrder.owned_push (h : s.InOrder) (l : Lexeme) : Owned (s.push l).kinds (s.push l).nesting := by
  rw [s.kinds_push, Sweep.push, ← s.length_kinds]
  have turn := s.nesting.step_turn s.kinds.length l.kind
  generalize s.nesting.step s.kinds.length l.kind = m at turn ⊢
  have same := List.Sublist.refl s.nesting.opened
  cases turn with
  | awaits => exact (h.owned.sublist same _ _).concat l.kind
  | closes above b outer shape split nearest =>
    refine (h.owned.sublist ?_ _ _).concat l.kind
    rw [split]
    exact (List.sublist_cons_self b outer).trans (List.sublist_append_right above _)
  | strays => exact h.owned.concat l.kind
  | abandons => exact (h.owned.sublist same _ _).concat l.kind
  | opensBody brace =>
    rw [brace]
    exact h.owned.openBody h.brackets h.waiting
  | opensGroup => exact h.owned.openGroup l.kind
  | passes => exact h.owned.concat l.kind

/-- The scopes around a token are open before it, and after it when it is a closing brace. -/
theorem mem_scopesAt {n : Nesting} {index : Nat} {kind : TokenKind} {o : ScopeOwner} :
    o ∈ n.scopesAt index kind ↔
      if kind = .closeBrace then ∃ x ∈ (n.step index kind).opened, x.owner = some o
      else ∃ x ∈ n.opened, x.owner = some o := by
  rw [Nesting.scopesAt]
  by_cases brace : kind = .closeBrace
  · rw [if_pos (by simp [brace]), if_pos brace, Nesting.mem_scopes]
  · rw [if_neg (by simp [brace]), if_neg brace, Nesting.mem_scopes]

theorem InOrder.surrounded_push (h : s.InOrder) (l : Lexeme) : Surrounded (s.push l) := by
  have after := h.brackets.push l
  have owned := h.owned_push l
  have grows : s.nesting.Extends s.tokens.size l.kind (s.push l).nesting :=
    (s.nesting.step_turn s.tokens.size l.kind).extends
  have size : ∀ x ∈ s.nesting.opened, x.index < s.tokens.size := fun x mem => s.length_kinds ▸ h.brackets.index_lt mem
  constructor
  case sound =>
    intro t token ht o ho
    obtain ⟨lt, ht⟩ | ⟨rfl, conditions⟩ := getElem?_push_cases ht
    · obtain ⟨owns, b, body, before, still⟩ := h.surrounded.sound t token ht o ho
      refine ⟨s.kinds_push l ▸ owns.concat l.kind, b, grows.keeps _ body, before, fun p mem same => ?_⟩
      obtain mem | ⟨last, -⟩ := grows.pair p mem
      · exact still p mem same
      · rw [last]
        exact lt
    · rw [conditions, mem_scopesAt] at ho
      split at ho
      · -- A closing brace stands outside the scope that it ends.
        rename_i brace
        obtain ⟨x, mem, owner⟩ := ho
        obtain ⟨owns, body⟩ := owned.opener x mem o owner
        obtain old | ⟨-, opens⟩ := grows.opened x mem
        · refine ⟨owns, x.index, body, size x old, fun p hp same => ?_⟩
          have apart := after.outside x mem p hp
          have := (after.pair_lt hp).1
          omega
        · rw [brace] at opens
          cases opens
      · rename_i noBrace
        obtain ⟨x, mem, owner⟩ := ho
        obtain ⟨owns, body⟩ := h.owned.opener x mem o owner
        refine ⟨s.kinds_push l ▸ owns.concat l.kind, x.index, grows.keeps _ body, size x mem, fun p hp same => ?_⟩
        obtain hp | ⟨-, b, hb, first, shape⟩ := grows.pair p hp
        · have apart := h.brackets.outside x mem p hp
          have := (h.brackets.pair_lt hp).1
          omega
        · have brace := (h.owned.body _ body).2.1
          simp only at brace
          rw [← same, first, (h.brackets.opener b hb).1] at brace
          rw [Option.some.inj brace] at shape
          refine absurd ?_ noBrace
          generalize l.kind = kind at shape
          cases kind <;> first | rfl | cases shape
  case ordered =>
    intro t token ht
    obtain ⟨-, ht⟩ | ⟨-, conditions⟩ := getElem?_push_cases ht
    · exact h.surrounded.ordered t token ht
    · rw [conditions, Nesting.scopesAt]
      split
      · exact owned.scopes_ordered
      · exact h.owned.scopes_ordered
  case inside =>
    intro x mem o owner t token ht less
    obtain old | ⟨new, -⟩ := grows.opened x mem
    · obtain ⟨-, ht⟩ | ⟨-, conditions⟩ := getElem?_push_cases ht
      · exact h.surrounded.inside x old o owner t token ht less
      · rw [conditions, mem_scopesAt]
        split
        · exact ⟨x, mem, owner⟩
        · exact ⟨x, old, owner⟩
    · obtain ⟨lt, -⟩ | ⟨rfl, -⟩ := getElem?_push_cases ht
      · omega
      · omega
  case closed =>
    intro q hq p hp same t token ht less less'
    have bound := after.pair_lt hp
    rw [s.kinds_push, List.length_append, s.length_kinds, List.length_singleton] at bound
    obtain ⟨-, ht⟩ | ⟨rfl, -⟩ := getElem?_push_cases ht
    · obtain hq | last := grows.body q hq
      · obtain hp | ⟨-, b, hb, first, -⟩ := grows.pair p hp
        · exact h.surrounded.closed q hq p hp same t token ht less less'
        · obtain ⟨o, owner, index⟩ := h.owned.owner b hb q hq (by omega)
          exact ⟨o, h.surrounded.inside b hb o owner t token ht (by omega), index⟩
      · omega
    · omega

theorem InOrder.push (h : s.InOrder) (l : Lexeme) : (s.push l).InOrder :=
  ⟨h.brackets.push l, h.waiting_push l, h.owned_push l, h.surrounded_push l⟩

theorem InOrder.foldl (ls : List Lexeme) {s : Sweep} (h : s.InOrder) : (ls.foldl Sweep.push s).InOrder := by
  induction ls generalizing s with
  | nil => exact h
  | cons l ls ih => exact ih (h.push l)

end Sweep

theorem sweep_inOrder (source : Bytes) : (sweep source).InOrder := Sweep.InOrder.start.foldl (lexemes source)

/-! ## The first token -/

theorem Sweep.kinds_foldl (ls : List Lexeme) (s : Sweep) :
    (ls.foldl Sweep.push s).kinds = s.kinds ++ ls.map Lexeme.kind := by
  induction ls generalizing s with
  | nil => simp
  | cons l ls ih => rw [List.foldl_cons, ih, s.kinds_push, List.append_assoc, List.map_cons, List.singleton_append]

theorem kinds_sweep (source : Bytes) : (sweep source).kinds = (lexemes source).map Lexeme.kind :=
  Sweep.kinds_foldl (lexemes source) {}

theorem scopeKind?_scanHtml (b : UInt8) (rest : Bytes) : (scanHtml b rest).1.scopeKind? = none := by
  unfold scanHtml
  simp only
  split
  · split
    · rfl
    · split <;> rfl
  · rfl

/-- A source begins outside of code, so its first token owns no scope. -/
theorem Owns.positive {source : Bytes} {o : ScopeOwner} (h : Owns (sweep source).kinds o) : 0 < o.index := by
  rw [Owns, kinds_sweep, lexemes] at h
  refine Nat.pos_of_ne_zero fun zero => ?_
  rw [zero] at h
  cases source with
  | nil =>
    rw [lexemesFrom] at h
    cases h
  | cons b rest =>
    rw [lexemesFrom] at h
    simp only [List.map_cons, List.getElem?_cons_zero, Option.bind_some] at h
    rw [scan, if_neg (by decide), scopeKind?_scanHtml] at h
    cases h

/-! ## All tokens -/

theorem opens_tokenize {source : Bytes} {o b : Nat} :
    (tokenize source).Opens o b ↔ (o, b) ∈ (sweep source).nesting.bodies := by
  have owned := (sweep_inOrder source).owned
  have found : (sweep source).nesting.body? o = some b ↔ (o, b) ∈ (sweep source).nesting.bodies :=
    lookup_eq_some_iff_mem fun i j k hj hk => (Prod.mk.inj (owned.unique _ hj _ hk (.inl rfl))).2
  rw [← found, Tokens.Opens, getElem?_tokenize]
  constructor
  · rintro ⟨t, ht, opens⟩
    obtain ⟨u, -, rfl⟩ := Option.map_eq_some_iff.1 ht
    exact opens
  · intro opens
    have bound := owned.body_lt (found.1 opens)
    rw [Sweep.length_kinds] at bound
    exact ⟨_, by rw [Array.getElem?_eq_getElem (Nat.lt_trans bound.1 bound.2)]; rfl, opens⟩

theorem owns_tokenize {source : Bytes} {o : ScopeOwner} : (tokenize source).Owns o ↔ Owns (sweep source).kinds o := by
  rw [Tokens.Owns, kindAt?_tokenize, Owns]

/-- A token of a source has the conditions of the sweep. -/
theorem exists_swept {source : Bytes} {i : Nat} {token : Token} (h : (tokenize source)[i]? = some token) :
    ∃ swept, (sweep source).tokens[i]? = some swept ∧ token.conditions = swept.conditions := by
  rw [getElem?_tokenize] at h
  obtain ⟨swept, hs, rfl⟩ := Option.map_eq_some_iff.1 h
  exact ⟨swept, hs, rfl⟩

/-- **Scopes around tokens.** The conditions of every token of a source name the scopes that it is
in, and no scope is owned by the first token. -/
theorem tokenize_scoped (source : Bytes) : (tokenize source).Scoped := by
  have order := sweep_inOrder source
  constructor
  case sound =>
    intro t token ht o ho
    obtain ⟨swept, hs, conditions⟩ := exists_swept ht
    rw [conditions] at ho
    obtain ⟨owns, b, body, before, still⟩ := order.surrounded.sound t swept hs o ho
    obtain ⟨less, brace, -⟩ := order.owned.body _ body
    refine ⟨owns.positive, owns_tokenize.2 owns, b, opens_tokenize.2 body, ?_, less, before, fun e linked => ?_⟩
    · rw [Tokens.isAt, kindAt?_tokenize, brace]
      rfl
    · rcases links_tokenize.1 linked with mem | mem
      · exact still _ mem rfl
      · -- A brace that opens a scope closes none.
        obtain ⟨-, opener, closer, -, hb, shape⟩ := order.brackets.pair _ mem
        rw [brace] at hb
        cases hb
        cases shape
  case complete =>
    intro o b e t opens linked less less'
    have body := opens_tokenize.1 opens
    have pair := mem_pairs_of_links linked (Nat.lt_trans less less')
    have bound := (order.brackets.pair_lt pair).2
    rw [Sweep.length_kinds] at bound
    have here := Array.getElem?_eq_getElem (Nat.lt_trans less' bound)
    obtain ⟨p, mem, index⟩ := order.surrounded.closed _ body _ pair rfl t _ here less less'
    obtain ⟨owns, -⟩ := order.surrounded.sound t _ here p mem
    have owner : (⟨o, p.kind⟩ : ScopeOwner) = p := by
      cases p
      cases index
      rfl
    refine ⟨_, p.kind, by rw [getElem?_tokenize, here]; rfl, ?_, ?_⟩
    · rw [owner]
      exact owns_tokenize.2 owns
    · rw [owner]
      exact mem
  case ordered =>
    intro t token ht
    obtain ⟨swept, hs, conditions⟩ := exists_swept ht
    rw [conditions]
    exact order.surrounded.ordered t swept hs
  case injective =>
    intro o p b ho hp
    exact (Prod.mk.inj (order.owned.unique _ (opens_tokenize.1 ho) _ (opens_tokenize.1 hp) (.inr rfl))).1
  case positive =>
    intro o b opens
    obtain ⟨-, -, kind, owns⟩ := order.owned.body _ (opens_tokenize.1 opens)
    exact owns.positive

end Lexer

end PhpRename
