import PhpRename.Lexer.Tokenize
import PhpRename.Proofs.Lexer.Boundary
import PhpRename.Proofs.Token.Position

/-!
# Tokens tile their source

The spans of the tokens follow one another and make up the source. Each token shows its span, read
lossily, and carries the place of the span's first byte. Where the source is well formed so is each
span: the texts then join to the source, and an offset into a text is an offset into the span.
-/

set_option autoImplicit false

namespace PhpRename

open Utf8

namespace Lexer

/-! ## Spans -/

/-- The spans of the tokens of a source, in order. -/
def spans (source : Bytes) : List Bytes := (lexemes source).map Lexeme.bytes

/-- Where the span of the token at `i` starts. -/
def spanStart (source : Bytes) (i : Nat) : Nat := ((spans source).take i).flatten.length

theorem flatten_spans (source : Bytes) : (spans source).flatten = source := by
  rw [spans, ← List.flatMap_def]
  exact flatMap_lexemes source

theorem spans_split (source : Bytes) (i : Nat) :
    ((spans source).take i).flatten ++ ((spans source).drop i).flatten = source := by
  rw [← List.flatten_append, List.take_append_drop, flatten_spans]

theorem take_spanStart (source : Bytes) (i : Nat) :
    source.take (spanStart source i) = ((spans source).take i).flatten := by
  have h := congrArg (List.take (spanStart source i)) (spans_split source i)
  rw [← h, spanStart, List.take_left]

/-- What follows the start of a token is its span and the rest. -/
theorem drop_spanStart {source s : Bytes} {i : Nat} (h : (spans source)[i]? = some s) :
    source.drop (spanStart source i) = s ++ ((spans source).drop (i + 1)).flatten := by
  obtain ⟨hi, rfl⟩ := List.getElem?_eq_some_iff.1 h
  have h := congrArg (List.drop (spanStart source i)) (spans_split source i)
  rw [← h, spanStart, List.drop_left, List.drop_eq_getElem_cons hi, List.flatten_cons]

theorem spanStart_succ {source s : Bytes} {i : Nat} (h : (spans source)[i]? = some s) :
    spanStart source (i + 1) = spanStart source i + s.length := by
  rw [spanStart, spanStart, List.take_add_one, h, List.flatten_append, List.length_append]
  simp

/-- Every span ends between characters. -/
theorem meet_span {source s : Bytes} {i : Nat} (h : (spans source)[i]? = some s) :
    Meet s ((spans source).drop (i + 1)).flatten := by
  rw [spans, List.getElem?_map] at h
  obtain ⟨l, hl, rfl⟩ := Option.map_eq_some_iff.1 h
  rw [spans, ← List.map_drop, ← List.flatMap_def]
  exact meet_lexemesFrom hl

theorem spanStart_mono {source : Bytes} {i j : Nat} (h : i ≤ j) : spanStart source i ≤ spanStart source j := by
  rw [spanStart, spanStart, show j = i + (j - i) by omega, List.take_add, List.flatten_append, List.length_append]
  exact Nat.le_add_right _ _

theorem spanStart_le (source : Bytes) (i : Nat) : spanStart source i ≤ source.length := by
  have len := congrArg List.length (spans_split source i)
  rw [List.length_append] at len
  rw [spanStart]
  omega

/-! ## The sweep -/

/-- Lexemes with the places where they start. -/
def placed (p : Position) : List Lexeme → List (Lexeme × Position)
  | [] => []
  | l :: ls => (l, p) :: placed (p.after l.bytes) ls

theorem getElem?_placed (p : Position) (ls : List Lexeme) (i : Nat) :
    (placed p ls)[i]? = ls[i]?.map fun l => (l, p.after ((ls.take i).flatMap Lexeme.bytes)) := by
  induction ls generalizing p i with
  | nil => simp [placed]
  | cons l ls ih =>
    cases i with
    | zero => rfl
    | succ i =>
      rw [placed, List.getElem?_cons_succ, List.getElem?_cons_succ, ih, List.take_succ_cons, List.flatMap_cons]
      simp only [Position.after_append]

/-- What a token takes over from its lexeme and place. -/
def tokenView (t : Token) : TokenKind × String × Position := (t.kind, t.text, t.position)

/-- What the token of a lexeme at a place shows. -/
def lexemeView (l : Lexeme × Position) : TokenKind × String × Position :=
  (l.1.kind, decodeLossy l.1.bytes, l.2)

theorem push_position (s : Sweep) (l : Lexeme) : (s.push l).position = s.position.after l.bytes := rfl

theorem push_view (s : Sweep) (l : Lexeme) :
    (s.push l).tokens.toList.map tokenView = s.tokens.toList.map tokenView ++ [lexemeView (l, s.position)] := by
  simp [Sweep.push, tokenView, lexemeView]

/-- The sweep shows each lexeme at the place where it starts. -/
theorem foldl_push_view (ls : List Lexeme) (s : Sweep) :
    (ls.foldl Sweep.push s).tokens.toList.map tokenView =
      s.tokens.toList.map tokenView ++ (placed s.position ls).map lexemeView := by
  induction ls generalizing s with
  | nil => simp [placed]
  | cons l ls ih =>
    rw [List.foldl_cons, ih, push_view, push_position, placed, List.map_cons, List.append_assoc]
    rfl

theorem linked_view (s : Sweep) : s.linked.toList.map tokenView = s.tokens.toList.map tokenView := by
  rw [Sweep.linked_eq]
  refine List.ext_getElem? fun i => ?_
  simp only [List.getElem?_map, Array.getElem?_toList, Array.getElem?_mapIdx, Option.map_map]
  rfl

theorem tokenize_view (source : Bytes) :
    (tokenize source).toList.map tokenView = (placed .start (lexemes source)).map lexemeView := by
  rw [tokenize, linked_view, foldl_push_view]
  rfl

theorem size_tokenize (source : Bytes) : (tokenize source).size = (spans source).length := by
  have hv := congrArg List.length (tokenize_view source)
  have hp : (placed .start (lexemes source)).length = (lexemes source).length := by
    generalize Position.start = p
    induction lexemes source generalizing p with
    | nil => rfl
    | cons l ls ih => rw [placed, List.length_cons, ih, List.length_cons]
  simpa [spans, hp] using hv

theorem spans_nonempty (source : Bytes) : ∀ s ∈ spans source, s ≠ [] := by
  intro s hs
  obtain ⟨l, -, rfl⟩ := List.mem_map.1 hs
  exact List.cons_ne_nil _ _

/-- Later tokens start later. -/
theorem spanStart_lt {source : Bytes} {i j : Nat} (lt : i < j) (bound : i < (tokenize source).size) :
    spanStart source i < spanStart source j := by
  rw [size_tokenize] at bound
  have span : (spans source)[i]? = some (spans source)[i] := List.getElem?_eq_getElem bound
  have some := List.length_pos_iff.2 (spans_nonempty source _ (List.getElem_mem bound))
  have next := spanStart_succ span
  have mono : spanStart source (i + 1) ≤ spanStart source j := spanStart_mono lt
  omega

/-- A token of a source: its lexeme, and where that starts. -/
structure IsToken (source : Bytes) (i : Nat) (t : Token) (l : Lexeme) : Prop where
  mem : l ∈ lexemes source
  span : (spans source)[i]? = some l.bytes
  kind : t.kind = l.kind
  text : t.text = decodeLossy l.bytes
  position : t.position = Position.start.after (source.take (spanStart source i))

theorem exists_isToken {source : Bytes} {i : Nat} {t : Token} (h : (tokenize source)[i]? = some t) :
    ∃ l, IsToken source i t l := by
  have hv : ((tokenize source).toList.map tokenView)[i]? = some (tokenView t) := by
    rw [List.getElem?_map, Array.getElem?_toList, h]
    rfl
  rw [tokenize_view, List.getElem?_map, getElem?_placed] at hv
  obtain ⟨l, hl⟩ : ∃ l, (lexemes source)[i]? = some l := by
    cases hl : (lexemes source)[i]? with
    | none =>
      rw [hl] at hv
      cases hv
    | some l => exact ⟨l, rfl⟩
  rw [hl] at hv
  have same : lexemeView (l, Position.start.after (((lexemes source).take i).flatMap Lexeme.bytes)) = tokenView t :=
    Option.some.inj hv
  simp only [lexemeView, tokenView, Prod.mk.injEq] at same
  have before : source.take (spanStart source i) = ((lexemes source).take i).flatMap Lexeme.bytes := by
    rw [take_spanStart, spans, ← List.map_take, List.flatMap_def]
  refine ⟨l, List.mem_of_getElem? hl, ?_, same.1.symm, same.2.1.symm, ?_⟩
  · rw [spans, List.getElem?_map, hl]
    rfl
  · rw [before]
    exact same.2.2.symm

/-! ## Offsets into a token -/

namespace IsToken

variable {source : Bytes} {i : Nat} {t : Token} {l : Lexeme}

/-- An offset into the span of a token is an offset into the source. -/
theorem after_take (h : IsToken source i t l) {k : Nat} (hk : k ≤ l.bytes.length) :
    t.position.after (l.bytes.take k) = Position.start.after (source.take (spanStart source i + k)) := by
  rw [h.position, ← Position.after_append, List.take_add, drop_spanStart h.span,
    List.take_append_of_le_length hk]

theorem valid (h : IsToken source i t l) (source_valid : Valid source) : Valid l.bytes :=
  valid_of_mem_lexemes source_valid l h.mem

/-- A token of a well-formed source is its span. -/
theorem encode_text (h : IsToken source i t l) (source_valid : Valid source) : encode t.text = l.bytes := by
  rw [h.text]
  exact (h.valid source_valid).encode_decodeLossy

/-- The place of a byte of a token of a well-formed source. -/
theorem positionOf (h : IsToken source i t l) (source_valid : Valid source) {k : Nat} (hk : k ≤ t.byteSize) :
    t.positionOf k = Position.ofOffset source (spanStart source i + k) := by
  have text := h.encode_text source_valid
  rw [Token.byteSize, text] at hk
  rw [Token.positionOf, text, h.after_take hk, Position.start_after_take, Nat.sub_eq_zero_of_le hk]
  rfl

end IsToken

/-! ## Tiling -/

/-- Spans that tile a source, one for each token: a token shows its span, read lossily, and carries
the place of the span's first byte. -/
structure Tiles (source : Bytes) (tokens : Tokens) (spans : List Bytes) : Prop where
  tile : spans.flatten = source
  nonempty : ∀ s ∈ spans, s ≠ []
  count : spans.length = tokens.size
  text : ∀ (i : Nat) (t : Token) (s : Bytes), tokens[i]? = some t → spans[i]? = some s → t.text = decodeLossy s
  position : ∀ (i : Nat) (t : Token), tokens[i]? = some t →
    t.position = Position.ofOffset source (spans.take i).flatten.length

/-- Spans that split no character: each is well formed, the texts of the tokens join to the source,
and an offset into a text is an offset into the source. -/
structure TilesText (source : Bytes) (tokens : Tokens) (spans : List Bytes) : Prop where
  whole : ∀ s ∈ spans, Valid s
  joined : encode (String.join (tokens.toList.map Token.text)) = source
  positionOf : ∀ (i : Nat) (t : Token) (k : Nat), tokens[i]? = some t → k ≤ t.byteSize →
    t.positionOf k = Position.ofOffset source ((spans.take i).flatten.length + k)

theorem encode_join (texts : List String) : encode (String.join texts) = texts.flatMap encode := by
  induction texts with
  | nil => rfl
  | cons text texts ih => rw [String.join_cons, encode_append, ih, List.flatMap_cons]

/-- The texts of the tokens of a well-formed source join to it. -/
theorem encode_join_texts {source : Bytes} (h : Valid source) :
    encode (String.join ((tokenize source).toList.map Token.text)) = source := by
  have each : ((tokenize source).toList.map Token.text).map encode = spans source := by
    refine List.ext_getElem? fun i => ?_
    rw [List.map_map, List.getElem?_map, Array.getElem?_toList]
    cases ht : (tokenize source)[i]? with
    | none =>
      have : (spans source).length ≤ i := by rw [← size_tokenize]; exact Array.getElem?_eq_none_iff.1 ht
      rw [List.getElem?_eq_none this]
      rfl
    | some t =>
      obtain ⟨l, token⟩ := exists_isToken ht
      rw [token.span, ← token.encode_text h]
      rfl
  rw [encode_join, List.flatMap_def, each, flatten_spans]

/-- **Tokens tile their source.** Every byte string is the sequence of the non-empty spans of its
tokens, and the spans of a well-formed one split no character. -/
theorem tokenize_tiles (source : Bytes) : ∃ spans,
    Tiles source (tokenize source) spans ∧ (Valid source → TilesText source (tokenize source) spans) := by
  refine ⟨spans source, ⟨flatten_spans source, spans_nonempty source, (size_tokenize source).symm, ?_, ?_⟩,
    fun valid => ⟨?_, encode_join_texts valid, ?_⟩⟩
  · intro i t s ht hs
    obtain ⟨l, token⟩ := exists_isToken ht
    rw [token.text, ← Option.some.inj (hs.symm.trans token.span)]
  · intro i t ht
    obtain ⟨l, token⟩ := exists_isToken ht
    rw [token.position, Position.start_after_take]
    rfl
  · intro s hs
    obtain ⟨l, hl, rfl⟩ := List.mem_map.1 hs
    exact valid_of_mem_lexemes valid l hl
  · intro i t k ht hk
    obtain ⟨l, token⟩ := exists_isToken ht
    exact token.positionOf valid hk

/-- Inline text, a variable and an open heredoc, each with a character of several bytes. -/
theorem tokenize_tiles_multibyte :
    let source := encode "é<?php $ü = <<<T\n ß"
    (tokenize source).toList.map Token.position =
        [⟨1, 1⟩, ⟨1, 3⟩, ⟨1, 8⟩, ⟨1, 9⟩, ⟨1, 12⟩, ⟨1, 13⟩, ⟨1, 14⟩, ⟨1, 15⟩] ∧
      ∃ spans, Tiles source (tokenize source) spans ∧ TilesText source (tokenize source) spans := by
  intro source
  obtain ⟨spans, tiles, text⟩ := tokenize_tiles source
  exact ⟨by decide +kernel, spans, tiles, text (valid_encode _)⟩

end Lexer

end PhpRename
