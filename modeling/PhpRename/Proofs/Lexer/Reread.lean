import PhpRename.Proofs.Lexer.Relabel
import PhpRename.Proofs.Lexer.Skeleton

/-!
# Sources with other names

A source is read back from its own tokens, so names may be put in the place of names in a source as in what
is written: the new source has the tokens of the old one but for these names and the positions.
-/

set_option autoImplicit false

namespace PhpRename.Lexer

open Ascii Utf8

/-! ## No lexeme is longer than the source -/

theorem length_le_of_startsWith {text : String} {bs : Bytes} (h : startsWith text bs = true) :
    (encode text).length ≤ bs.length := by
  obtain ⟨rest, rfl⟩ := startsWith_iff.1 h
  rw [List.length_append]
  exact Nat.le_add_right _ _

/-- A text is no longer than the bytes that it is read from. -/
theorem length_decodeLossy_le (bs : Bytes) : (decodeLossy bs).toList.length ≤ bs.length := by
  have pieces : ∀ ps : List Piece, (∀ p ∈ ps, p.bytes ≠ []) → ps.length ≤ (ps.flatMap Piece.bytes).length := by
    intro ps some
    induction ps with
    | nil => exact Nat.le_refl 0
    | cons p ps ih =>
      have first := List.length_pos_iff.2 (some p (List.mem_cons_self ..))
      have others := ih fun q mem => some q (List.mem_cons_of_mem p mem)
      rw [List.flatMap_cons, List.length_append, List.length_cons]
      omega
  have some : ∀ p ∈ cut bs, p.bytes ≠ [] := by
    intro p mem
    cases isPiece_of_mem_cut mem with
    | char c =>
      obtain ⟨lead, tail, encoded⟩ := exists_encode_cons c
      rw [Piece.ofChar, encoded]
      exact List.cons_ne_nil lead tail
    | stray => exact List.cons_ne_nil _ _
  have count := pieces (cut bs) some
  rw [flatMap_cut] at count
  rw [toList_decodeLossy, List.length_map]
  exact count

theorem blockCommentLength_le {bs : Bytes} (starts : startsWith "/*" bs = true) :
    blockCommentLength bs ≤ bs.length := by
  have two : (encode "/*").length = 2 := by decide
  have two' : (encode "*/").length = 2 := by decide
  have opens := length_le_of_startsWith starts
  rw [blockCommentLength]
  cases found : offsetOf? (encode "*/") (bs.drop 2) with
  | none => exact Nat.le_refl _
  | some n =>
    obtain ⟨before, after, split, rfl⟩ := eq_of_offsetOf? found
    have length := congrArg List.length split
    rw [List.length_drop, List.length_append, List.length_append, two'] at length
    show before.length + 4 ≤ _
    omega

theorem heredocLength?_le {bs : Bytes} {n : Nat} (h : heredocLength? bs = some n) : n ≤ bs.length := by
  rw [heredocLength?] at h
  generalize heredocQuote ((bs.drop 3).dropWhile isBlank) = q at h
  obtain ⟨quote, labelled⟩ := q
  simp only at h
  split at h
  · cases h
  -- With a quote or without one, the length is what remains of the source.
  cases quote
  all_goals
    obtain ⟨afterQuote, -, h⟩ := Option.bind_eq_some_iff.1 h
    obtain ⟨body, -, h⟩ := Option.bind_eq_some_iff.1 h
    cases h
    exact Nat.sub_le _ _

theorem scanOperator_le (b : UInt8) (rest : Bytes) : (scanOperator b rest).2 ≤ (b :: rest).length := by
  rw [scanOperator]
  split
  · rename_i op found
    have here : startsWith op.1 (b :: rest) = true := by simpa using List.find?_some found
    have length := length_le_of_startsWith here
    rwa [(longOperators_ascii op (List.mem_of_find?_eq_some found)).1] at length
  · exact Nat.le_add_left 1 _

theorem scanHtml_le (b : UInt8) (rest : Bytes) : (scanHtml b rest).2 ≤ (b :: rest).length := by
  rw [scanHtml]
  split
  · rename_i short
    split
    · rename_i long
      have length := length_decodeLossy_le ((b :: rest).take 5)
      have folded := congrArg String.toList ((sameIgnoringCase_iff _ _).1 long)
      have chars := congrArg List.length folded
      rw [lower, lower, String.toList_ofList, String.toList_ofList, List.length_map, List.length_map] at chars
      have five : "<?php".toList.length = 5 := by decide
      rw [chars, five, List.length_take] at length
      exact Nat.le_trans length (Nat.min_le_right _ _)
    · split
      · rename_i echo
        exact length_le_of_startsWith echo
      · exact length_le_of_startsWith short
  · rw [htmlLength]
    cases found : offsetOf? (encode "<?") (b :: rest) with
    | none => exact Nat.le_refl _
    | some n =>
      obtain ⟨before, after, split, rfl⟩ := eq_of_offsetOf? found
      rw [split, List.length_append]
      exact Nat.le_add_right _ _

theorem scanCode_le (last : Option TokenKind) (b : UInt8) (rest : Bytes) :
    (scanCode last b rest).2 ≤ (b :: rest).length := by
  have lexical := scanCode_lexeme last b rest
  generalize scanCode last b rest = lexeme at lexical ⊢
  cases lexical with
  | closeTag starts => exact length_le_of_startsWith starts
  | whitespace => exact (List.takeWhile_prefix _).length_le
  | attributeList starts => exact length_le_of_startsWith starts
  | lineComment =>
    obtain ⟨xs, ys, split, length, -⟩ := lineComment_split (b :: rest)
    show lineCommentLength (b :: rest) ≤ _
    rw [← length, split, List.length_append]
    exact Nat.le_add_right _ _
  | blockComment starts => exact blockCommentLength_le starts
  | dollarName =>
    have taken := (List.takeWhile_prefix (l := rest) inName).length_le
    show 1 + _ ≤ _
    rw [List.length_cons]
    omega
  | word =>
    obtain ⟨xs, ys, split, length, -⟩ := word_split (b :: rest)
    show wordLength (b :: rest) ≤ _
    rw [← length, split, List.length_append]
    exact Nat.le_add_right _ _
  | number =>
    obtain ⟨xs, ys, split, length, -⟩ := number_split (b :: rest)
    show numberLength (b :: rest) ≤ _
    rw [← length, split, List.length_append]
    exact Nat.le_add_right _ _
  | quoted =>
    obtain ⟨xs, ys, split, length, -⟩ := quoted_split b rest
    show 1 + quotedLength b rest ≤ _
    rw [← length, List.length_cons, split, List.length_append]
    omega
  | heredoc length => exact heredocLength?_le length
  | operator => exact scanOperator_le b rest

theorem scan_le (c : Context) (b : UInt8) (rest : Bytes) : (scan c b rest).2 ≤ (b :: rest).length := by
  rw [scan]
  split
  · exact scanCode_le c.last b rest
  · exact scanHtml_le b rest

/-! ## Reading a source back -/

/-- The kinds and texts of the tokens of a source. -/
def retold (source : Bytes) : List (TokenKind × String) :=
  (tokenize source).toList.map fun t => (t.kind, t.text)

theorem map_fst_placed (p : Position) (ls : List Lexeme) : (placed p ls).map Prod.fst = ls := by
  induction ls generalizing p with
  | nil => rfl
  | cons l ls ih => rw [placed, List.map_cons, ih]

theorem retold_eq (source : Bytes) :
    retold source = (lexemes source).map fun l => (l.kind, decodeLossy l.bytes) := by
  have view := congrArg (List.map fun v => (v.1, v.2.1)) (tokenize_view source)
  rw [List.map_map, List.map_map] at view
  conv => rhs; rw [← map_fst_placed .start (lexemes source), List.map_map]
  exact view

theorem readBack_lexemesFrom {c : Context} {bs : Bytes} (valid : Valid bs) :
    ReadBack c ((lexemesFrom c bs).map fun l => (l.kind, decodeLossy l.bytes)) ∧
      spelled ((lexemesFrom c bs).map fun l => (l.kind, decodeLossy l.bytes)) = bs := by
  fun_induction lexemesFrom c bs with
  | case1 c => exact ⟨.nil c, rfl⟩
  | case2 c b rest kind n scanned ih =>
    have whole : Valid ((b :: rest.take (n - 1)) ++ rest.drop (n - 1)) := by
      rw [List.cons_append, List.take_append_drop]
      exact valid
    obtain ⟨first, others⟩ := whole.split (scan_meet scanned)
    obtain ⟨read, back⟩ := ih others
    have bytes : encode (decodeLossy (b :: rest.take (n - 1))) = b :: rest.take (n - 1) := first.encode_decodeLossy
    have pos := (scan_ends c b rest).pos
    have le := scan_le c b rest
    rw [scanned] at pos le
    rw [List.length_cons] at le
    have taken : (rest.take (n - 1)).length + 1 = n := by
      rw [List.length_take]
      simp only at pos le
      omega
    refine ⟨.cons ⟨b, rest.take (n - 1), bytes, ?_⟩ read, ?_⟩
    · rw [back, List.take_append_drop, scanned, taken]
    · rw [List.map_cons, spelled_cons, back]
      show encode (decodeLossy (b :: rest.take (n - 1))) ++ _ = _
      rw [bytes, List.cons_append, List.take_append_drop]

/-- A well-formed source is read back from its tokens. -/
theorem readBack_retold {source : Bytes} (valid : Valid source) :
    ReadBack {} (retold source) ∧ spelled (retold source) = source := by
  rw [retold_eq]
  exact readBack_lexemesFrom valid

/-! ## The tokens of a source with other names -/

theorem ReadBack.kinds {written : List (TokenKind × String)} (h : ReadBack {} written) :
    (lexemes (spelled written)).map Lexeme.kind = written.map Prod.fst := by
  have kinds := congrArg (List.map Prod.fst) h.lexemesFrom
  rw [List.map_map, List.map_map] at kinds
  exact kinds

theorem Renamed.kinds {old new : String} {before : Option TokenKind} {written written' : List (TokenKind × String)}
    (h : Renamed old new before written written') : written'.map Prod.fst = written.map Prod.fst := by
  induction h with
  | nil => rfl
  | keep before kind text rest ih => rw [List.map_cons, List.map_cons, ih]
  | rename qualifies apart rest ih => rw [List.map_cons, List.map_cons, ih]

section

variable {source : Bytes} {old new : String} {written' : List (TokenKind × String)} (valid : Valid source)
  (isOld : Name.IsLabel old) (isNew : Name.IsLabel new) (free : Name.classFault? new = none)
  (tags : ∀ t ∈ tokenize source, t.kind = .openTag → IsLongTag t.text)
  (renamed : Renamed old new none (retold source) written')
include valid isOld isNew free tags renamed

theorem readBack_of_renamed : ReadBack {} written' := by
  apply (readBack_retold valid).1.renamed isOld isNew free renamed
  intro p mem
  obtain ⟨t, ht, rfl⟩ := List.mem_map.1 mem
  exact tags t (Array.mem_toList_iff.1 ht)

theorem size_tokenize_of_renamed : (tokenize (spelled written')).size = (tokenize source).size := by
  have read := readBack_of_renamed valid isOld isNew free tags renamed
  have count := congrArg List.length renamed.kinds
  rw [List.length_map, List.length_map, retold, List.length_map] at count
  rw [read.size_tokenize, count, Array.length_toList]

/-- **Other names, the same structure.** The tokens of the new source are those of the old one but for the texts
that are put in and the positions. -/
theorem tokenize_of_renamed {i : Nat} {t : Token} {kind : TokenKind} {text : String}
    (token : (tokenize source)[i]? = some t) (put : written'[i]? = some (kind, text)) :
    ∃ p, (tokenize (spelled written'))[i]? = some { t with text := text, position := p } := by
  have read := readBack_of_renamed valid isOld isNew free tags renamed
  have source_kinds : (lexemes source).map Lexeme.kind = (retold source).map Prod.fst := by
    rw [retold_eq, List.map_map]
    rfl
  have kinds : (lexemes source).map Lexeme.kind = (lexemes (spelled written')).map Lexeme.kind := by
    rw [read.kinds, renamed.kinds, source_kinds]
  obtain ⟨t', token', shape⟩ := tokenize_of_kinds kinds token
  obtain ⟨u, found, -, spelt, -⟩ := read.exists_token put
  obtain rfl : t' = u := Option.some.inj (token'.symm.trans found)
  rw [spelt] at shape
  rw [token', shape]
  exact ⟨_, rfl⟩

end

end PhpRename.Lexer
