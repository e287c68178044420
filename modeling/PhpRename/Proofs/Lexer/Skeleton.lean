import PhpRename.Proofs.Lexer.Scopes

/-!
# Kinds decide the structure of a source

The scopes around tokens and the links between them are told by the kinds of the tokens alone: two sources
whose lexemes have the same kinds have the same tokens up to texts and positions.
-/

set_option autoImplicit false

namespace PhpRename.Lexer

/-- Two sweeps over lexemes of the same kinds: the same nesting, and the same tokens up to texts and
positions. -/
structure Sweep.Parallel (s s' : Sweep) : Prop where
  nesting : s.nesting = s'.nesting
  tokens : s.tokens.toList.map (fun t => (t.kind, t.conditions)) = s'.tokens.toList.map fun t => (t.kind, t.conditions)

namespace Sweep.Parallel

variable {s s' : Sweep}

theorem size (h : s.Parallel s') : s.tokens.size = s'.tokens.size := by
  have count := congrArg List.length h.tokens
  rwa [List.length_map, List.length_map, Array.length_toList, Array.length_toList] at count

/-- One more lexeme of the same kind. -/
theorem push (h : s.Parallel s') {l l' : Lexeme} (kind : l.kind = l'.kind) : (s.push l).Parallel (s'.push l') := by
  constructor
  · show s.nesting.step s.tokens.size l.kind = s'.nesting.step s'.tokens.size l'.kind
    rw [h.nesting, h.size, kind]
  · unfold Sweep.push
    rw [Array.toList_push, Array.toList_push, List.map_append, List.map_append, h.tokens, h.nesting, h.size, kind]
    rfl

/-- All lexemes, one by one. -/
theorem foldl {ls ls' : List Lexeme} (kinds : ls.map Lexeme.kind = ls'.map Lexeme.kind) (h : s.Parallel s') :
    (ls.foldl Sweep.push s).Parallel (ls'.foldl Sweep.push s') := by
  induction ls generalizing ls' s s' with
  | nil =>
    obtain rfl := List.map_eq_nil_iff.1 kinds.symm
    exact h
  | cons l ls ih =>
    obtain ⟨l', more, rfl, kind, others⟩ := List.map_eq_cons_iff.1 kinds.symm
    apply ih others.symm
    exact h.push kind.symm

end Sweep.Parallel

/-- **Kinds decide the structure.** Where the lexemes of two sources have the same kinds, the tokens differ in
their texts and positions only. -/
theorem tokenize_of_kinds {source source' : Bytes}
    (kinds : (lexemes source).map Lexeme.kind = (lexemes source').map Lexeme.kind) {i : Nat} {t : Token}
    (h : (tokenize source)[i]? = some t) :
    ∃ t', (tokenize source')[i]? = some t' ∧ t' = { t with text := t'.text, position := t'.position } := by
  have parallel : (sweep source).Parallel (sweep source') := .foldl kinds ⟨rfl, rfl⟩
  rw [getElem?_tokenize] at h ⊢
  obtain ⟨swept, ht, rfl⟩ := Option.map_eq_some_iff.1 h
  have same := congrArg (·[i]?) parallel.tokens
  simp only [List.getElem?_map, Array.getElem?_toList, ht, Option.map_some] at same
  obtain ⟨swept', ht', shape⟩ := Option.map_eq_some_iff.1 same.symm
  rw [ht', Option.map_some]
  refine ⟨_, rfl, ?_⟩
  simp only [Prod.mk.injEq] at shape
  rw [parallel.nesting, ← shape.1, ← shape.2]

end PhpRename.Lexer
