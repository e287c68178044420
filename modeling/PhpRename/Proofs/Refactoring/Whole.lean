import PhpRename.Proofs.Edit.Places
import PhpRename.Proofs.Lexer.Reword

/-!
# Edits of whole tokens

Edits may put a new name in the place of tokens that are an old name, whatever else the source holds. The content
that they leave has the bytes of the source, token by token, with the new name for each token that is replaced.
-/

set_option autoImplicit false

namespace PhpRename

open Utf8 Lexer

namespace Edit

/-- Whether an edit starts where the token at `i` does. -/
def replacesAt (edits : List Edit) (ts : Tokens) (i : Nat) : Bool := ts[i]?.any fun t => edits.any (·.key == t.position)

/-- The lexemes of a source with a new name for each that is replaced. -/
def written (edits : List Edit) (new : String) (source : Bytes) : List (TokenKind × Bytes) :=
  (lexemes source).mapIdx fun i l => (l.kind, if replacesAt edits (tokenize source) i then encode new else l.bytes)

/-- The source with a new name for each token that is replaced. -/
def rewritten (edits : List Edit) (new : String) (source : Bytes) : Bytes := joined (written edits new source)

/-- An edit puts a new name in the place of the token at `i`, which is the old one. -/
structure Replaces (e : Edit) (old new : String) (source : Bytes) (i : Nat) : Prop where
  span : (spans source)[i]? = some (encode old)
  aims : e.Targets source (spanStart source i) (encode old)
  puts : e.replacement = new

variable {old new : String} {source : Bytes} {edits : List Edit} {e : Edit} {i j : Nat}

theorem Replaces.spanStart_succ (h : e.Replaces old new source i) :
    spanStart source (i + 1) = spanStart source i + (encode old).length := Lexer.spanStart_succ h.span

/-- Edits of two tokens, the first in front of the second. -/
theorem Replaces.apart {e' : Edit} (h : e.Replaces old new source i) (h' : e'.Replaces old new source j) (lt : i < j)
    (nonempty : encode old ≠ []) : e.Apart e' := by
  refine h.aims.apart h'.aims nonempty nonempty ?_
  rw [← h.spanStart_succ]
  exact spanStart_mono lt

theorem Replaces.lt_size (h : e.Replaces old new source i) : i < (tokenize source).size := by
  rw [size_tokenize]
  exact (List.getElem?_eq_some_iff.1 h.span).1

/-- Which token an edit replaces is told by where it starts. -/
theorem Replaces.eq_of_key (h : e.Replaces old new source i) (bound : j < (tokenize source).size)
    (starts : e.key = Position.ofOffset source (spanStart source j)) : i = j := by
  have inside := h.lt_size
  have same := (h.aims.key_eq_iff (spanStart_le source i) (spanStart_le source j)).1 starts
  obtain lt | rfl | lt := Nat.lt_trichotomy i j
  · exact absurd same (Nat.ne_of_lt (spanStart_lt lt inside))
  · rfl
  · exact absurd same.symm (Nat.ne_of_lt (spanStart_lt lt bound))

section

variable (replaces : ∀ e ∈ edits, ∃ i, e.Replaces old new source i)
include replaces

/-- A token is replaced by an edit of its own. -/
theorem replacesAt_iff : replacesAt edits (tokenize source) i = true ↔ ∃ e ∈ edits, e.Replaces old new source i := by
  rw [replacesAt, Option.any_eq_true]
  constructor
  · rintro ⟨t, token, h⟩
    obtain ⟨e, mem, starts⟩ := List.any_eq_true.1 h
    obtain ⟨j, replaced⟩ := replaces e mem
    obtain ⟨l, isToken⟩ := exists_isToken token
    rw [isToken.position, Position.start_after_take] at starts
    obtain rfl := replaced.eq_of_key (Array.getElem?_eq_some_iff.1 token).1 (eq_of_beq starts)
    exact ⟨e, mem, replaced⟩
  · rintro ⟨e, mem, h⟩
    have bound := h.lt_size
    obtain ⟨l, isToken⟩ := exists_isToken (Array.getElem?_eq_getElem bound)
    refine ⟨_, Array.getElem?_eq_getElem bound, List.any_eq_true.2 ⟨e, mem, ?_⟩⟩
    rw [isToken.position, Position.start_after_take, h.aims.key]
    exact beq_self_eq_true _

/-- An edit replaces a token or aims outside of it. -/
theorem replaces_or_aimsOutside {span : Bytes} (token : (spans source)[i]? = some span) (mem : e ∈ edits) :
    e.Replaces old new source i ∨ AimsOutside source (encode old) (spanStart source i) span.length e := by
  obtain ⟨j, h⟩ := replaces e mem
  have next := h.spanStart_succ
  have next' := Lexer.spanStart_succ token
  obtain lt | rfl | lt := Nat.lt_trichotomy i j
  · have order : spanStart source (i + 1) ≤ spanStart source j := spanStart_mono lt
    exact .inr ⟨_, h.aims, .inr (by omega)⟩
  · exact .inl h
  · have order : spanStart source (j + 1) ≤ spanStart source i := spanStart_mono lt
    exact .inr ⟨_, h.aims, .inl (by omega)⟩

/-- Nothing is put in behind the last token. -/
theorem insertedAt_length (nonempty : encode old ≠ []) :
    insertedAt edits (Position.ofOffset source source.length) = [] := by
  rw [insertedAt, List.filter_eq_nil_iff.2, List.flatMap_nil]
  intro e mem starts
  obtain ⟨i, h⟩ := replaces e mem
  have some := List.length_pos_iff.2 nonempty
  have next := h.spanStart_succ
  have bound := spanStart_le source (i + 1)
  have same := (h.aims.key_eq_iff (by omega) (Nat.le_refl _)).1 (eq_of_beq starts)
  omega

section

variable (isOld : Name.IsLabel old) (apart : edits.Pairwise Apart)
include isOld apart

/-- One token: it is replaced, or it stays. -/
theorem substituteAt_span {span : Bytes} (token : (spans source)[i]? = some span) :
    substituteAt edits (Position.ofOffset source (spanStart source i)) (source.drop (spanStart source i)) =
      (if replacesAt edits (tokenize source) i then encode new else span) ++
        substituteAt edits (Position.ofOffset source (spanStart source (i + 1)))
          (source.drop (spanStart source (i + 1))) := by
  have no := isOld.lineFeed_notMem
  have some := isOld.encode_ne_nil
  have next := Lexer.spanStart_succ token
  have here : source.drop (spanStart source i) = span ++ source.drop (spanStart source (i + 1)) := by
    rw [next, ← List.drop_drop, drop_spanStart token, List.drop_left]
  have others := fun e (mem : e ∈ edits) => replaces_or_aimsOutside replaces token mem
  by_cases replaced : replacesAt edits (tokenize source) i = true
  · obtain ⟨e, mem, h⟩ := (replacesAt_iff replaces).1 replaced
    obtain rfl : encode old = span := Option.some.inj (h.span.symm.trans token)
    have bytes : e.bytes = encode new := by rw [bytes, h.puts]
    rw [if_pos replaced, here, substituteAt_replace no some apart mem h.aims here, bytes, next]
    intro a ha
    refine (others a ha).imp_left fun again => ?_
    have starts : a ∈ edits.filter (·.key == e.key) :=
      List.mem_filter.2 ⟨ha, beq_iff_eq.2 (again.aims.key.trans h.aims.key.symm)⟩
    rw [filter_key_of_apart apart mem] at starts
    exact List.mem_singleton.1 starts
  · rw [if_neg replaced, here, substituteAt_keep no some here, next]
    intro e mem
    refine (others e mem).resolve_left fun h => replaced ?_
    exact (replacesAt_iff replaces).2 ⟨e, mem, h⟩

/-- All tokens from one on. -/
theorem substituteAt_spans (left : Nat) (size : i + left = (lexemes source).length) :
    substituteAt edits (Position.ofOffset source (spanStart source i)) (source.drop (spanStart source i)) =
      joined ((written edits new source).drop i) := by
  induction left generalizing i with
  | zero =>
    have ends : spanStart source i = source.length := by
      rw [spanStart, List.take_of_length_le (by rw [spans, List.length_map]; omega), flatten_spans]
    have all : (written edits new source).drop i = [] := by
      rw [List.drop_eq_nil_of_le]
      rw [written, List.length_mapIdx]
      omega
    rw [ends, List.drop_length, substituteAt, insertedAt_length replaces isOld.encode_ne_nil, all]
    rfl
  | succ left ih =>
    have bound : i < (lexemes source).length := by omega
    have token : (spans source)[i]? = some (lexemes source)[i].bytes := by
      rw [spans, List.getElem?_map, List.getElem?_eq_getElem bound, Option.map_some]
    have bound' : i < (written edits new source).length := by rw [written, List.length_mapIdx]; exact bound
    have rest : (written edits new source).drop i =
        ((lexemes source)[i].kind, if replacesAt edits (tokenize source) i then encode new else (lexemes source)[i].bytes) ::
          (written edits new source).drop (i + 1) := by
      rw [List.drop_eq_getElem_cons bound']
      congr 1
      exact List.getElem_mapIdx ..
    rw [substituteAt_span replaces isOld apart token, ih (by omega), rest, joined_cons]

/-- **What edits of whole tokens leave**: the tokens of the source, with the new name for each that is replaced. -/
theorem substitute_rewritten (inside : ∀ e ∈ edits, e.LiesIn source) :
    substitute edits source = rewritten edits new source := by
  have all := substituteAt_spans replaces isOld apart (lexemes source).length (Nat.zero_add _)
  rw [substitute_eq_substituteAt inside]
  exact all

end

end

/-- A plain name that stands right behind neither a number nor an open tag. -/
structure Free (ts : Tokens) (i : Nat) : Prop where
  name : ts.kindAt? i = some .identifier
  noNumber : ∀ h, i = h + 1 → ts.kindAt? h ≠ some .number
  noTag : ∀ h, i = h + 1 → ts.kindAt? h ≠ some .openTag

/-- Lexemes in which some words are put in are the same but for these words. -/
theorem reworded_mapIdx (ls : List Lexeme) (before : Option TokenKind) (put : Nat → Bool)
    (words : ∀ i l, ls[i]? = some l → put i = true → l.pair = (.identifier, encode old) ∧
      (before :: ls.map fun l => some l.kind)[i]? ≠ some (some .number) ∧
      (before :: ls.map fun l => some l.kind)[i]? ≠ some (some .openTag)) :
    Reworded old new before (ls.map Lexeme.pair)
      (ls.mapIdx fun i l => (l.kind, if put i then encode new else l.bytes)) := by
  induction ls generalizing before put with
  | nil => exact .nil before
  | cons l ls ih =>
    have rest := ih (some l.kind) (fun i => put (i + 1)) fun i m found => words (i + 1) m found
    rw [List.map_cons, List.mapIdx_cons]
    by_cases here : put 0 = true
    · obtain ⟨pair, noNumber, noTag⟩ := words 0 l rfl here
      have kind : l.kind = .identifier := congrArg Prod.fst pair
      rw [kind] at rest
      rw [pair, if_pos here, kind]
      exact .put (fun number => noNumber (congrArg some number)) (fun tag => noTag (congrArg some tag)) rest
    · rw [if_neg here]
      exact .keep before l.kind l.bytes rest

/-- The kind of the lexeme before another one. -/
theorem kind_before (source : Bytes) (i : Nat) (kind : TokenKind)
    (h : ((none : Option TokenKind) :: (lexemes source).map fun l => some l.kind)[i]? = some (some kind)) :
    ∃ j, i = j + 1 ∧ (tokenize source).kindAt? j = some kind := by
  cases i with
  | zero => cases h
  | succ j =>
    rw [List.getElem?_cons_succ, List.getElem?_map] at h
    obtain ⟨l, found, same⟩ := Option.map_eq_some_iff.1 h
    refine ⟨j, rfl, ?_⟩
    rw [kindAt?_lexemes, List.getElem?_map, found, ← same]
    rfl

/-- A source with a new name for tokens that are free of their neighbours has other words. -/
theorem reworded_written (replaces : ∀ e ∈ edits, ∃ i, e.Replaces old new source i)
    (free : ∀ i, replacesAt edits (tokenize source) i = true → Free (tokenize source) i) :
    Reworded old new none ((lexemes source).map Lexeme.pair) (written edits new source) := by
  apply reworded_mapIdx
  intro i l found put
  have span : (spans source)[i]? = some l.bytes := by rw [spans, List.getElem?_map, found, Option.map_some]
  obtain ⟨name, noNumber, noTag⟩ := free i put
  rw [kindAt?_lexemes, List.getElem?_map, found] at name
  obtain ⟨e, -, h⟩ := (replacesAt_iff replaces).1 put
  refine ⟨Prod.ext (Option.some.inj name) (Option.some.inj (span.symm.trans h.span)), ?_, ?_⟩
  · intro number
    obtain ⟨j, next, kind⟩ := kind_before source i .number number
    exact noNumber j next kind
  · intro tag
    obtain ⟨j, next, kind⟩ := kind_before source i .openTag tag
    exact noTag j next kind

end Edit

end PhpRename
