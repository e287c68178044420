import PhpRename.Proofs.Lexer.Scopes

/-!
# Sources without braces

Where no brace opens, every token stands at the top level; and a parenthesis that closes right
behind an opening one is always linked to it, since nothing stands open in between.
-/

set_option autoImplicit false

namespace PhpRename

/-- Tokens at the top level whose empty argument lists are linked. -/
structure Tokens.Flat (ts : Tokens) : Prop where
  topLevel : ∀ (i : Nat) (t : Token), ts[i]? = some t → t.conditions = []
  linked : ∀ i, ts.kindAt? i = some .openParen → ts.kindAt? (i + 1) = some .closeParen →
    ts.matching? i = some (i + 1)

namespace Lexer

/-! ## Empty parentheses -/

theorem Nesting.mem_pairs_step {n : Nesting} {index : Nat} {kind : TokenKind} {p : Nat × Nat} (mem : p ∈ n.pairs) :
    p ∈ (n.step index kind).pairs := by
  have turn := n.step_turn index kind
  generalize n.step index kind = m at turn ⊢
  cases turn with
  | closes => exact List.mem_cons_of_mem _ mem
  | awaits => exact mem
  | strays => exact mem
  | abandons => exact mem
  | opensBody => exact mem
  | opensGroup => exact mem
  | passes => exact mem

theorem mem_pairs_foldl (ls : List Lexeme) {s : Sweep} {p : Nat × Nat} (mem : p ∈ s.nesting.pairs) :
    p ∈ (ls.foldl Sweep.push s).nesting.pairs := by
  induction ls generalizing s with
  | nil => exact mem
  | cons l ls ih => exact ih (s := s.push l) (Nesting.mem_pairs_step mem)

theorem Nesting.mem_pairs_parens (n : Nesting) (index : Nat) :
    (index, index + 1) ∈ ((n.step index .openParen).step (index + 1) .closeParen).pairs := by
  have closed : (n.step index .openParen).step (index + 1) .closeParen =
      (n.openGroup index .openParen).close (index + 1) .openParen := rfl
  have top : (n.openGroup index .openParen).opened.dropWhile (·.kind != .openParen) =
      ⟨index, .openParen, none⟩ :: n.opened := List.dropWhile_cons_of_neg Bool.false_ne_true
  rw [closed, close, top]
  exact List.mem_cons_self ..

/-- The parentheses of an empty argument list are linked. -/
theorem links_parens {source : Bytes} {i : Nat} (opener : (tokenize source).kindAt? i = some .openParen)
    (closer : (tokenize source).kindAt? (i + 1) = some .closeParen) : (tokenize source).Links i (i + 1) := by
  rw [kindAt?_tokenize, kinds_sweep, List.getElem?_map, Option.map_eq_some_iff] at opener closer
  obtain ⟨a, ha, opens⟩ := opener
  obtain ⟨b, hb, closes⟩ := closer
  obtain ⟨lt, rfl⟩ := List.getElem?_eq_some_iff.1 ha
  obtain ⟨lt', rfl⟩ := List.getElem?_eq_some_iff.1 hb
  have split : lexemes source =
      (lexemes source).take i ++ (lexemes source)[i] :: (lexemes source)[i + 1] :: (lexemes source).drop (i + 2) := by
    rw [← List.drop_eq_getElem_cons lt', ← List.drop_eq_getElem_cons lt, List.take_append_drop]
  have size : (((lexemes source).take i).foldl Sweep.push {}).tokens.size = i := by
    rw [← Sweep.length_kinds, Sweep.kinds_foldl]
    simp [Sweep.kinds, Nat.le_of_lt lt]
  refine links_tokenize.2 (.inl ?_)
  rw [sweep, split, List.foldl_append, List.foldl_cons, List.foldl_cons]
  apply mem_pairs_foldl
  have pair := (((lexemes source).take i).foldl Sweep.push {}).nesting.mem_pairs_parens i
  rw [← opens, ← closes] at pair
  simpa [Sweep.push, size] using pair

/-! ## Tokens at the top level -/

theorem tokenize_flat {source : Bytes} (noBrace : ∀ i, (tokenize source).kindAt? i ≠ some .openBrace) :
    (tokenize source).Flat := by
  constructor
  case topLevel =>
    intro i t ht
    obtain ⟨swept, hs, same⟩ := exists_swept ht
    rw [same]
    refine List.eq_nil_iff_forall_not_mem.2 fun o mem => ?_
    have order := sweep_inOrder source
    obtain ⟨-, b, body, -⟩ := order.surrounded.sound i swept hs o mem
    refine noBrace b ?_
    rw [kindAt?_tokenize]
    exact (order.owned.body _ body).2.1
  case linked =>
    intro i opener closer
    obtain ⟨t, ht, matching⟩ := links_parens opener closer
    obtain ⟨c, hc, -⟩ := Option.map_eq_some_iff.1 closer
    rw [Tokens.matching?, ht, Option.bind_some, matching, Option.bind_some, Tokens.inRange?,
      if_pos (Array.getElem?_eq_some_iff.1 hc).1]

end Lexer

end PhpRename
