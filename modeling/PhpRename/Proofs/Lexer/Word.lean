import PhpRename.Proofs.Lexer.Reread

/-!
# Labels are words

A name is a label exactly when the lexer takes it, alone in front of the end of a source, for one word: a
plain name or a reserved word. The check of names goes by characters and the lexer by bytes, so both ways
need that a character and its bytes agree. A name that may name a class is never a reserved word.
-/

set_option autoImplicit false

namespace PhpRename

open Utf8

/-! ## Characters of a label, from their bytes -/

/-- A character whose bytes may stand in a name may stand in a label. -/
theorem inLabel_of_inName {c : Char} (h : ∀ b ∈ String.utf8EncodeChar c, Lexer.inName b = true) :
    Name.inLabel c = true := by
  rcases Nat.lt_or_ge c.toNat 0x80 with ascii | beyond
  · have byte : UInt8.ofNat c.toNat ∈ String.utf8EncodeChar c := by
      rw [encode_one ascii]
      exact List.mem_singleton_self _
    have inName := h _ byte
    rwa [← inLabel_eq_inName _ ascii, Char.ofNat_toNat] at inName
  · simp [Name.inLabel, Name.startsLabel, beyond]

/-- A character whose first byte may start a name may start a label. -/
theorem startsLabel_of_startsName {c : Char} {b : UInt8} {tail : Bytes} (bytes : String.utf8EncodeChar c = b :: tail)
    (h : Lexer.startsName b = true) : Name.startsLabel c = true := by
  rcases Nat.lt_or_ge c.toNat 0x80 with ascii | beyond
  · rw [encode_one ascii] at bytes
    rw [← (List.cons.inj bytes).1, ← startsLabel_eq_startsName _ ascii, Char.ofNat_toNat] at h
    exact h
  · simp [Name.startsLabel, beyond]

/-- A name whose bytes are those of names, the first one of a start, is a label. -/
theorem Name.IsLabel.of_encode {name : String} {b : UInt8} {tail : Bytes} (bytes : encode name = b :: tail)
    (starts : Lexer.startsName b = true) (names : ∀ x ∈ encode name, Lexer.inName x = true) : Name.IsLabel name := by
  cases chars : name.toList with
  | nil =>
    rw [encode, chars] at bytes
    cases bytes
  | cons c rest =>
    have each : ∀ d ∈ c :: rest, Name.inLabel d = true := by
      intro d mem
      apply inLabel_of_inName
      intro x hx
      apply names
      rw [encode, chars]
      exact List.mem_flatMap.2 ⟨d, mem, hx⟩
    obtain ⟨lead, more, encoded⟩ := exists_encode_cons c
    have first : lead = b := by
      rw [encode, chars, encodeChars_cons, encoded] at bytes
      exact (List.cons.inj bytes).1
    refine ⟨c, rest, chars, startsLabel_of_startsName encoded (first ▸ starts), fun d mem => ?_⟩
    exact each d (List.mem_cons_of_mem c mem)

namespace Lexer

/-! ## Kinds of words -/

/-- Whether a kind is that of a word: a plain name or a reserved word. -/
def isWord (kind : TokenKind) : Bool := kind == .identifier || reserved.any (·.2 == kind)

theorem isWord_wordKind (last : Option TokenKind) (word : Bytes) : isWord (wordKind last word) = true := by
  rw [wordKind]
  split
  · rfl
  · cases found : reservedKind? (decodeLossy word) with
    | none => rfl
    | some kind =>
      obtain ⟨before, after, split, -⟩ := List.lookup_eq_some_iff.1 found
      have mem : (Ascii.lower (decodeLossy word), kind) ∈ reserved := by
        rw [split]
        simp
      rw [Option.getD_some, isWord, Bool.or_eq_true, List.any_eq_true]
      exact .inr ⟨_, mem, beq_self_eq_true kind⟩

theorem isWord_scanOperator (b : UInt8) (rest : Bytes) : isWord (scanOperator b rest).1 = false := by
  have long : ∀ op ∈ longOperators, isWord op.2 = false := by decide
  have short : ∀ op ∈ shortOperators, isWord op.2 = false := by decide
  rw [scanOperator]
  split
  next op found => exact long op (List.mem_of_find?_eq_some found)
  · cases found : shortOperators.find? fun op => Ascii.byte op.1 == b with
    | none => decide
    | some op => exact short op (List.mem_of_find?_eq_some found)

theorem isWord_scanHtml (b : UInt8) (rest : Bytes) : isWord (scanHtml b rest).1 = false := by
  rw [scanHtml]
  split
  · split
    · decide
    · split <;> decide
  · rfl

/-- What starts as a block comment is a comment. -/
theorem isWord_of_blockComment {last : Option TokenKind} {b : UInt8} {rest : Bytes}
    (starts : startsWith "/*" (b :: rest) = true) : isWord (scanCode last b rest).1 = false := by
  obtain ⟨more, split⟩ := startsWith_iff.1 starts
  have bytes : encode "/*" = [0x2f, 0x2a] := by decide
  rw [bytes, List.cons_append] at split
  obtain ⟨rfl, rfl⟩ := List.cons.inj split
  have noTag : startsWith "?>" (0x2f :: ([0x2a] ++ more)) = false :=
    startsWith_eq_false [0x2f] (by decide) (by decide)
  have noAttribute : startsWith "#[" (0x2f :: ([0x2a] ++ more)) = false :=
    startsWith_eq_false [0x2f] (by decide) (by decide)
  have noLine : startsWith "//" (0x2f :: ([0x2a] ++ more)) = false :=
    startsWith_eq_false [0x2f, 0x2a] (by decide) (by decide)
  have noSpace : Ascii.isSpace 0x2f = false := by decide
  have noHash : (0x2f == Ascii.byte '#') = false := by decide
  rw [scanCode]
  simp only [noTag, noAttribute, noLine, noSpace, noHash, starts, Bool.or_self, Bool.false_eq_true, if_false, if_true]
  split <;> decide

/-- Only a word has the kind of one: it starts as a name does and is as long as one. -/
theorem scan_word {c : Context} {b : UInt8} {rest : Bytes} (h : isWord (scan c b rest).1 = true) :
    (startsName b || (b == Ascii.byte '\\' && nameFollows rest)) = true ∧
      (scan c b rest).2 = wordLength (b :: rest) := by
  rw [scan] at h ⊢
  split at h
  next code =>
    rw [if_pos code]
    have lexical := scanCode_lexeme c.last b rest
    have block := @isWord_of_blockComment c.last b rest
    generalize scanCode c.last b rest = lexeme at lexical block h ⊢
    cases lexical with
    | word starts => exact ⟨starts, rfl⟩
    | blockComment starts other => exact absurd h (Bool.eq_false_iff.1 (block starts))
    | operator noName => exact absurd h (Bool.eq_false_iff.1 (isWord_scanOperator b rest))
    | closeTag | whitespace | attributeList | lineComment | dollarName | number | quoted | heredoc =>
      exact absurd h Bool.false_ne_true
  · exact absurd h (Bool.eq_false_iff.1 (isWord_scanHtml b rest))

/-! ## Sources of one word -/

/-- Behind an open tag and whitespace, a source has one word of a kind and nothing else. -/
def IsLoneWord (source : Bytes) (kind : TokenKind) (word : String) : Prop :=
  isWord kind = true ∧ ∃ tag space, retold source = [(.openTag, tag), (.whitespace, space), (kind, word)]

/-- What was written is told again. -/
theorem ReadBack.retold {written : List (TokenKind × String)} (h : ReadBack {} written) :
    retold (spelled written) = written := by
  have told := congrArg (List.map fun p => (p.1, decodeLossy p.2)) h.lexemesFrom
  rw [List.map_map, List.map_map] at told
  rw [retold_eq]
  refine told.trans ((List.map_congr_left fun p _ => ?_).trans (List.map_id written))
  exact Prod.ext rfl (decodeLossy_encode p.2)

variable {name : String}

/-- A label behind an open tag and a space is one word. -/
theorem isLoneWord_of_label (label : Name.IsLabel name) :
    IsLoneWord (encode ("<?php " ++ name)) (wordKind (some .openTag) (encode name)) name := by
  obtain ⟨b, tail, bytes, starts⟩ := label.exists_encode
  have noSpace : Ascii.isSpace b = false := by
    have plain := (plain_of_startsName b starts).1
    simp only [isPlain, Bool.and_eq_true, Bool.not_eq_true'] at plain
    exact plain.1.1.1
  have stop : (encode name ++ []).head?.any Ascii.isSpace = false := by
    rw [bytes]
    exact noSpace
  have read : ReadBack {} [(.openTag, "<?php"), (.whitespace, " "), (wordKind (some .openTag) (encode name), name)] :=
    .cons (reads_openTag _) (.cons (reads_space (b := 0x20) (by decide) (by decide) stop)
      (.cons (reads_word label rfl) (.nil _)))
  have whole : spelled [(.openTag, "<?php"), (.whitespace, " "), (wordKind (some .openTag) (encode name), name)] =
      encode ("<?php " ++ name) := by
    rw [encode_append]
    simp only [spelled, List.flatMap_cons, List.flatMap_nil, List.append_nil]
    rfl
  have told := read.retold
  rw [whole] at told
  exact ⟨isWord_wordKind _ _, _, _, told⟩

/-- A lone word without a backslash is a label. -/
theorem IsLoneWord.isLabel {source : String} {kind : TokenKind} (h : IsLoneWord (encode source) kind name)
    (noSlash : '\\' ∉ name.toList) : Name.IsLabel name := by
  obtain ⟨word, tag, space, told⟩ := h
  have back := (readBack_retold (valid_encode source)).1
  rw [told] at back
  obtain _ | ⟨-, _ | ⟨-, _ | ⟨⟨b, tail, bytes, read⟩, -⟩⟩⟩ := back
  rw [spelled, List.flatMap_nil, List.append_nil] at read
  obtain ⟨starts, length⟩ := scan_word (by rw [read]; exact word)
  rw [read] at length
  -- The word is all of the name, so each byte of the name stands in a word.
  obtain ⟨xs, ys, split, taken, -, inWord⟩ := word_split (b :: tail)
  have nothing : ys = [] := by
    have whole := congrArg List.length split
    rw [List.length_append, taken, ← length, List.length_cons] at whole
    exact List.eq_nil_of_length_eq_zero (by omega)
  rw [nothing, List.append_nil] at split
  have noByte : Ascii.byte '\\' ∉ encode name := by
    intro mem
    obtain ⟨c, hc, mem⟩ := List.mem_flatMap.1 mem
    have same : c = '\\' := Char.toNat_inj.1 (eq_of_mem_encode (by decide) mem)
    exact noSlash (same ▸ hc)
  have names : ∀ x ∈ encode name, inName x = true := by
    intro x mem
    rw [bytes, split] at mem
    refine (inWord x mem).resolve_right fun slash => noByte ?_
    rw [bytes, split, ← slash]
    exact mem
  have first : startsName b = true := by
    rw [Bool.or_eq_true, Bool.and_eq_true] at starts
    refine starts.resolve_right fun slash => noByte ?_
    rw [bytes, ← eq_of_beq slash.1]
    exact List.mem_cons_self ..
  exact .of_encode bytes first names

/-- **Labels are words.** A name is accepted as a label just when it is neither empty nor qualified and the
lexer reads it, behind an open tag and a space, as one word and nothing else; and what is accepted as the
name of a class is then a plain name, and no reserved word. -/
theorem accept_label_iff_isLoneWord (name : String) :
    (Name.accept Name.labelFault? name = .ok () ↔
      name ≠ "" ∧ '\\' ∉ name.toList ∧ ∃ kind, IsLoneWord (encode ("<?php " ++ name)) kind name) ∧
    (Name.accept Name.classFault? name = .ok () →
      IsLoneWord (encode ("<?php " ++ name)) .identifier name ∧
        ∀ kind, IsLoneWord (encode ("<?php " ++ name)) kind name → kind = .identifier) := by
  rw [Name.accept_ok_iff, Name.accept_ok_iff, Name.labelFault?_eq_none_iff]
  constructor
  · constructor
    · intro label
      refine ⟨?_, label.notMem (by decide), _, isLoneWord_of_label label⟩
      rintro rfl
      exact label.nonempty rfl
    · rintro ⟨-, noSlash, kind, lone⟩
      exact lone.isLabel noSlash
  · intro free
    have lone := isLoneWord_of_label (Name.isLabel_of_classFault? free)
    rw [wordKind_of_classFault? _ free] at lone
    refine ⟨lone, fun kind other => ?_⟩
    obtain ⟨_, _, _, told⟩ := lone
    obtain ⟨_, _, _, told'⟩ := other
    rw [told] at told'
    simp only [List.cons.injEq, Prod.mk.injEq, and_true] at told'
    exact told'.2.2.symm

/-- A name with letters outside ASCII is a plain name, and a reserved word in capitals is accepted as a
label but not as the name of a class. -/
theorem accept_label_iff_isLoneWord_reserved :
    Name.accept Name.classFault? "Échec_1" = .ok () ∧
      IsLoneWord (encode "<?php Échec_1") .identifier "Échec_1" ∧
      Name.accept Name.labelFault? "CLASS" = .ok () ∧ Name.accept Name.classFault? "CLASS" ≠ .ok () ∧
      ∃ kind, IsLoneWord (encode "<?php CLASS") kind "CLASS" := by
  have free : Name.accept Name.classFault? "Échec_1" = .ok () := by decide +kernel
  have label : Name.accept Name.labelFault? "CLASS" = .ok () := by decide +kernel
  obtain ⟨-, -, lone⟩ := (accept_label_iff_isLoneWord "CLASS").1.1 label
  exact ⟨free, ((accept_label_iff_isLoneWord "Échec_1").2 free).1, label, by decide +kernel, lone⟩

end Lexer

end PhpRename
