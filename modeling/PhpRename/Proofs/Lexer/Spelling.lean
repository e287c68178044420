import PhpRename.Proofs.Lexer.Scopes
import PhpRename.Proofs.Lexer.Tiling
import PhpRename.Proofs.Name.Label
import PhpRename.Proofs.Text.Lossy

/-!
# Reading what was written

A sequence of kinds and texts is spelled right when each text, in front of what follows it, is one
lexeme of its kind; the lexemes of the joined texts are then that sequence. Names, spaces and the
punctuation of simple statements are spelled right in front of whatever cannot go on with them.
-/

set_option autoImplicit false

namespace PhpRename

open Ascii Utf8

/-! ## Bytes of labels -/

theorem startsLabel_eq_startsName :
    ∀ n < 128, Name.startsLabel (Char.ofNat n) = Lexer.startsName (UInt8.ofNat n) := by
  decide

theorem inLabel_eq_inName : ∀ n < 128, Name.inLabel (Char.ofNat n) = Lexer.inName (UInt8.ofNat n) := by
  decide

/-- A byte of a character is outside ASCII or is the character. -/
theorem mem_utf8EncodeChar_cases {b : UInt8} {c : Char} (h : b ∈ String.utf8EncodeChar c) :
    0x80 ≤ b ∨ b.toNat < 128 ∧ c = Char.ofNat b.toNat := by
  rcases Nat.lt_or_ge b.toNat 128 with ascii | high
  · refine .inr ⟨ascii, ?_⟩
    rw [← eq_of_mem_encode ascii h, Char.ofNat_toNat]
  · exact .inl (UInt8.le_iff_toNat_le.2 high)

theorem startsName_of_mem {b : UInt8} {c : Char} (h : b ∈ String.utf8EncodeChar c)
    (label : Name.startsLabel c = true) :
    Lexer.startsName b = true := by
  obtain high | ⟨ascii, rfl⟩ := mem_utf8EncodeChar_cases h
  · simp [Lexer.startsName, high]
  · rwa [startsLabel_eq_startsName _ ascii, UInt8.ofNat_toNat] at label

theorem inName_of_mem {b : UInt8} {c : Char} (h : b ∈ String.utf8EncodeChar c) (label : Name.inLabel c = true) :
    Lexer.inName b = true := by
  obtain high | ⟨ascii, rfl⟩ := mem_utf8EncodeChar_cases h
  · simp [Lexer.inName, Lexer.startsName, high]
  · rwa [inLabel_eq_inName _ ascii, UInt8.ofNat_toNat] at label

namespace Name.IsLabel

variable {name : String}

theorem inName_of_mem_encode (h : IsLabel name) {b : UInt8} (mem : b ∈ encode name) : Lexer.inName b = true := by
  obtain ⟨c, hc, mem⟩ := List.mem_flatMap.1 mem
  exact inName_of_mem mem (h.inLabel_of_mem c hc)

/-- The first byte of a label starts a name. -/
theorem exists_encode (h : IsLabel name) : ∃ b tail, encode name = b :: tail ∧ Lexer.startsName b = true := by
  obtain ⟨c, rest, split, starts, -⟩ := h
  obtain ⟨lead, tail, encoded⟩ := exists_encode_cons c
  refine ⟨lead, tail ++ encodeChars rest, ?_, startsName_of_mem (c := c) ?_ starts⟩
  · rw [encode, split, encodeChars_cons, encoded, List.cons_append]
  · rw [encoded]
    exact List.mem_cons_self ..

end Name.IsLabel

namespace Lexer

/-! ## Lexemes that are spelled right -/

/-- In a context, a text in front of the given bytes is one lexeme of a kind. -/
def Reads (c : Context) (kind : TokenKind) (text : String) (rest : Bytes) : Prop :=
  ∃ b tail, encode text = b :: tail ∧ scan c b (tail ++ rest) = (kind, tail.length + 1)

/-- The bytes of a sequence of lexemes, each given by its kind and text. -/
def spelled (written : List (TokenKind × String)) : Bytes := written.flatMap fun p => encode p.2

/-- A sequence of lexemes that is read, from a context on, as it is written. -/
inductive ReadBack : Context → List (TokenKind × String) → Prop where
  | nil (c : Context) : ReadBack c []
  | cons {c : Context} {kind : TokenKind} {text : String} {written : List (TokenKind × String)}
      (head : Reads c kind text (spelled written)) (tail : ReadBack (c.after kind) written) :
      ReadBack c ((kind, text) :: written)

theorem Reads.lexemesFrom {c : Context} {kind : TokenKind} {text : String} {rest : Bytes}
    (h : Reads c kind text rest) : ∃ l : Lexeme, l.kind = kind ∧ l.bytes = encode text ∧
      lexemesFrom c (encode text ++ rest) = l :: lexemesFrom (c.after kind) rest := by
  obtain ⟨b, tail, bytes, read⟩ := h
  refine ⟨⟨kind, b, tail⟩, rfl, bytes.symm, ?_⟩
  rw [bytes, List.cons_append, Lexer.lexemesFrom, read]
  simp

theorem ReadBack.lexemesFrom {c : Context} {written : List (TokenKind × String)} (h : ReadBack c written) :
    (lexemesFrom c (spelled written)).map (fun l => (l.kind, l.bytes)) = written.map fun p => (p.1, encode p.2) := by
  induction h with
  | nil c => simp [spelled, Lexer.lexemesFrom]
  | cons head tail ih =>
    obtain ⟨l, kind, bytes, read⟩ := head.lexemesFrom
    rw [spelled, List.flatMap_cons, ← spelled, read, List.map_cons, ih, kind, bytes, List.map_cons]

/-! ## Spaces, names and punctuation in code -/

section

variable {last : Option TokenKind} {b : UInt8} {rest : Bytes}

/-- A text that differs from the bytes ahead where both are known. -/
theorem startsWith_eq_false {text : String} (known : Bytes) (differ : ¬ encode text <+: known)
    (differ' : ¬ known <+: encode text) : startsWith text (known ++ rest) = false := by
  refine Bool.eq_false_iff.2 fun starts => ?_
  rw [startsWith, List.isPrefixOf_iff_prefix] at starts
  exact (List.prefix_or_prefix_of_prefix starts (List.prefix_append known rest)).elim differ differ'

theorem startsWith_cons_eq_false {text : String} (first : UInt8) (tail : Bytes) (bytes : encode text = first :: tail)
    (ne : first ≠ b) : startsWith text (b :: rest) = false := by
  refine startsWith_eq_false [b] ?_ ?_
  · rw [bytes, List.cons_prefix_cons]
    exact fun same => ne same.1
  · rw [bytes, List.cons_prefix_cons]
    exact fun same => ne same.1.symm

theorem takeWhile_eq_nil {test : UInt8 → Bool} (stop : rest.head?.any test = false) : rest.takeWhile test = [] := by
  cases rest with
  | nil => rfl
  | cons x rest => exact List.takeWhile_cons_of_neg (by simpa using stop)

theorem scanCode_space (h : isSpace b = true) :
    scanCode last b rest = (.whitespace, ((b :: rest).takeWhile isSpace).length) := by
  have noTag : startsWith "?>" (b :: rest) = false := by
    refine startsWith_cons_eq_false 0x3f [0x3e] (by decide) ?_
    rintro rfl
    revert h
    decide
  rw [scanCode, noTag, if_neg Bool.false_ne_true, if_pos h]

/-- Bytes that open neither a space nor a tag, comment or attribute. -/
def isPlain (b : UInt8) : Bool := !isSpace b && b != byte '?' && b != byte '#' && b != byte '/'

theorem plain_of_startsName : ∀ b : UInt8, startsName b = true → isPlain b = true ∧ b ≠ byte '$' := by
  decide +kernel

theorem scanCode_plain (h : isPlain b = true) : scanCode last b rest =
    if b == byte '$' && nameFollows rest then (.variableName, 1 + (rest.takeWhile inName).length)
    else if startsName b || (b == byte '\\' && nameFollows rest) then
      (wordKind last ((b :: rest).take (wordLength (b :: rest))), wordLength (b :: rest))
    else if isDigit b then (.number, numberLength (b :: rest))
    else if isQuote b then (.stringLit, 1 + quotedLength b rest)
    else
      match if startsWith "<<<" (b :: rest) then heredocLength? (b :: rest) else none with
      | some n => (.heredoc, n)
      | none => scanOperator b rest := by
  simp only [isPlain, Bool.and_eq_true, Bool.not_eq_true', bne_iff_ne] at h
  obtain ⟨⟨⟨space, question⟩, hash⟩, slash⟩ := h
  have noTag : startsWith "?>" (b :: rest) = false :=
    startsWith_cons_eq_false (byte '?') [0x3e] (by decide) (Ne.symm question)
  have noAttribute : startsWith "#[" (b :: rest) = false :=
    startsWith_cons_eq_false (byte '#') [0x5b] (by decide) (Ne.symm hash)
  have noLine : startsWith "//" (b :: rest) = false :=
    startsWith_cons_eq_false (byte '/') [0x2f] (by decide) (Ne.symm slash)
  have noBlock : startsWith "/*" (b :: rest) = false :=
    startsWith_cons_eq_false (byte '/') [0x2a] (by decide) (Ne.symm slash)
  have read := scanCode.eq_def last b rest
  simp only [noTag, space, noAttribute, noLine, noBlock, beq_false_of_ne hash, Bool.false_eq_true, if_false,
    Bool.or_self] at read
  exact read

theorem reads_space {text : String} (bytes : encode text = [b]) (space : isSpace b = true)
    (stop : rest.head?.any isSpace = false) : Reads ⟨true, last⟩ .whitespace text rest := by
  refine ⟨b, [], bytes, ?_⟩
  have none : rest.takeWhile isSpace = [] := takeWhile_eq_nil stop
  rw [scan, if_pos rfl, scanCode_space space, List.nil_append, List.takeWhile_cons_of_pos space, none]
  rfl

/-- A variable is read as far as bytes of names follow. -/
theorem reads_variable {v : String} (label : Name.IsLabel v) (stop : rest.head?.any inName = false) :
    Reads ⟨true, last⟩ .variableName ("$" ++ v) rest := by
  obtain ⟨b, tail, bytes, starts⟩ := label.exists_encode
  refine ⟨byte '$', encode v, by rw [encode_append]; rfl, ?_⟩
  have follows : nameFollows (encode v ++ rest) = true := by
    rw [bytes]
    exact starts
  have length : ((encode v ++ rest).takeWhile inName).length = (encode v).length := by
    rw [List.takeWhile_append_of_pos fun _ => label.inName_of_mem_encode, takeWhile_eq_nil stop, List.append_nil]
  rw [scan, if_pos rfl, scanCode_plain (by decide), follows, if_pos (by decide), length, Nat.add_comm]

theorem wordLength_append {xs : Bytes} (names : ∀ b ∈ xs, inName b = true) (stop : wordLength rest = 0) :
    wordLength (xs ++ rest) = xs.length := by
  induction xs with
  | nil => exact stop
  | cons x xs ih =>
    have first : inName x = true := names x (List.mem_cons_self ..)
    rw [List.cons_append, wordLength, first, Bool.true_or, if_pos rfl, List.length_cons,
      ih fun b mem => names b (List.mem_cons_of_mem x mem)]

theorem reads_word {w : String} (label : Name.IsLabel w) (stop : wordLength rest = 0) :
    Reads ⟨true, last⟩ (wordKind last (encode w)) w rest := by
  obtain ⟨b, tail, bytes, starts⟩ := label.exists_encode
  refine ⟨b, tail, bytes, ?_⟩
  have plain := plain_of_startsName b starts
  have whole : b :: (tail ++ rest) = encode w ++ rest := by rw [bytes, List.cons_append]
  have length : wordLength (b :: (tail ++ rest)) = tail.length + 1 := by
    rw [whole, wordLength_append (fun _ => label.inName_of_mem_encode) stop, bytes, List.length_cons]
  rw [scan, if_pos rfl, scanCode_plain plain.1, beq_false_of_ne plain.2, Bool.false_and, if_neg Bool.false_ne_true,
    starts, Bool.true_or, if_pos rfl, length, whole, bytes]
  simp

/-! ## Punctuation -/

/-- Bytes that start nothing but operators. -/
def isMark (b : UInt8) : Bool :=
  isPlain b && b != byte '$' && !startsName b && b != byte '\\' && !isDigit b && !isQuote b && b != byte '<'

theorem scanCode_mark (mark : isMark b = true) : scanCode last b rest = scanOperator b rest := by
  simp only [isMark, Bool.and_eq_true, Bool.not_eq_true', bne_iff_ne] at mark
  obtain ⟨⟨⟨⟨⟨⟨plain, noDollar⟩, noName⟩, noSlash⟩, noDigit⟩, noQuote⟩, noHeredoc⟩ := mark
  have noMark : startsWith "<<<" (b :: rest) = false :=
    startsWith_cons_eq_false (byte '<') [0x3c, 0x3c] (by decide) (Ne.symm noHeredoc)
  rw [scanCode_plain plain]
  simp only [beq_false_of_ne noDollar, noName, beq_false_of_ne noSlash, noDigit, noQuote, noMark, Bool.false_and,
    Bool.or_self, Bool.false_eq_true, if_false]

theorem scanOperator_long {op : String} {kind : TokenKind} {before after : List (String × TokenKind)} {tail : Bytes}
    (split : longOperators = before ++ (op, kind) :: after) (bytes : encode op = b :: tail)
    (others : ∀ o ∈ before, ¬ encode o.1 <+: encode op ∧ ¬ encode op <+: encode o.1) :
    scanOperator b (tail ++ rest) = (kind, op.length) := by
  have found : longOperators.find? (fun o => startsWith o.1 (b :: (tail ++ rest))) = some (op, kind) := by
    rw [← List.cons_append, ← bytes]
    refine List.find?_eq_some_iff_append.2 ⟨startsWith_iff.2 ⟨rest, rfl⟩, before, after, split, fun o mem => ?_⟩
    rw [startsWith_eq_false _ (others o mem).1 (others o mem).2, Bool.not_false]
  rw [scanOperator, found]

/-- An operator of one character, where no longer one goes on with the bytes ahead. -/
theorem reads_short {kind : TokenKind} {text : String} (b : UInt8) (known : Bytes) (bytes : encode text = [b])
    (mark : isMark b = true)
    (others : ∀ o ∈ longOperators, ¬ encode o.1 <+: b :: known ∧ ¬ b :: known <+: encode o.1)
    (short : (shortOperators.find? fun op => byte op.1 == b).map (·.2) = some kind) :
    Reads ⟨true, last⟩ kind text (known ++ rest) := by
  refine ⟨b, [], bytes, ?_⟩
  have none : longOperators.find? (fun o => startsWith o.1 (b :: (known ++ rest))) = none := by
    refine List.find?_eq_none.2 fun o mem => ?_
    rw [← List.cons_append, startsWith_eq_false _ (others o mem).1 (others o mem).2]
    exact Bool.false_ne_true
  rw [scan, if_pos rfl, scanCode_mark mark, List.nil_append, scanOperator, none, short]
  rfl

/-- An operator of several characters, where no earlier one in the table is there. -/
theorem reads_long {kind : TokenKind} {op : String} (b : UInt8) (tail : Bytes)
    (before after : List (String × TokenKind)) (split : longOperators = before ++ (op, kind) :: after)
    (bytes : encode op = b :: tail) (mark : isMark b = true) (length : op.length = tail.length + 1)
    (others : ∀ o ∈ before, ¬ encode o.1 <+: encode op ∧ ¬ encode op <+: encode o.1) :
    Reads ⟨true, last⟩ kind op rest := by
  refine ⟨b, tail, bytes, ?_⟩
  rw [scan, if_pos rfl, scanCode_mark mark, scanOperator_long split bytes others, ← length]

theorem reads_equal (rest : Bytes) : Reads ⟨true, last⟩ .equal "=" (0x20 :: rest) :=
  reads_short (byte '=') [0x20] (by decide) (by decide) (by decide) (by decide)

theorem reads_openParen (rest : Bytes) : Reads ⟨true, last⟩ .openParen "(" rest :=
  reads_short (byte '(') [] (by decide) (by decide) (by decide) (by decide)

theorem reads_closeParen (rest : Bytes) : Reads ⟨true, last⟩ .closeParen ")" rest :=
  reads_short (byte ')') [] (by decide) (by decide) (by decide) (by decide)

theorem reads_semicolon (rest : Bytes) : Reads ⟨true, last⟩ .semicolon ";" rest :=
  reads_short (byte ';') [] (by decide) (by decide) (by decide) (by decide)

theorem reads_arrow (rest : Bytes) : Reads ⟨true, last⟩ .arrow "->" rest :=
  reads_long (byte '-') [byte '>'] (longOperators.take 9) (longOperators.drop 10) (by decide) (by decide) (by decide)
    (by decide) (by decide)

end

/-! ## Kinds of words -/

theorem wordKind_of_forcesName {last : Option TokenKind} (forced : last.any forcesName = true) (word : Bytes) :
    wordKind last word = .identifier := by
  rw [wordKind, forced, Bool.or_true, if_pos rfl]

/-- Every reserved word of the lexer is refused as the name of a class. -/
theorem reservedKind?_eq_none {name : String} (h : Name.isReserved name = false) : reservedKind? name = none := by
  have table : ∀ entry ∈ reserved, entry.1 ∈ Name.reservedWords ∧ lower entry.1 = entry.1 := by
    decide +kernel
  rw [reservedKind?, List.lookup_eq_none_iff]
  intro entry mem
  obtain ⟨listed, small⟩ := table entry mem
  refine bne_iff_ne.2 fun same => Bool.eq_false_iff.1 h ?_
  rw [Name.isReserved, List.any_eq_true]
  refine ⟨entry.1, List.mem_append_left _ listed, ?_⟩
  rw [sameIgnoringCase_iff, small, same]

/-- The name of a class is read as a plain name. -/
theorem wordKind_of_classFault? {name : String} (last : Option TokenKind) (h : Name.classFault? name = none) :
    wordKind last (encode name) = .identifier := by
  have free : Name.isReserved name = false := by
    refine Bool.eq_false_iff.2 fun taken => ?_
    rw [Name.classFault?, taken] at h
    cases fault : Name.labelFault? name <;> simp [fault] at h
  rw [wordKind, decodeLossy_encode, reservedKind?_eq_none free]
  split <;> rfl

/-! ## The open tag -/

theorem reads_openTag (rest : Bytes) : Reads {} .openTag "<?php" rest := by
  refine ⟨0x3c, [0x3f, 0x70, 0x68, 0x70], by decide, ?_⟩
  have tag : startsWith "<?" (0x3c :: ([0x3f, 0x70, 0x68, 0x70] ++ rest)) = true :=
    startsWith_iff.2 ⟨[0x70, 0x68, 0x70] ++ rest, rfl⟩
  have whole : 0x3c :: ([0x3f, 0x70, 0x68, 0x70] ++ rest) = encode "<?php" ++ rest := rfl
  have length : (encode "<?php").length = 5 := by decide
  rw [scan, if_neg Bool.false_ne_true, scanHtml, if_pos tag, whole, List.take_left' length, decodeLossy_encode,
    if_pos (sameIgnoringCase_refl _)]
  rfl

/-! ## What stands in front -/

theorem head?_spelled {kind : TokenKind} {text : String} {b : UInt8} (front : (encode text).head? = some b)
    (behind : List (TokenKind × String)) : (spelled ((kind, text) :: behind)).head? = some b := by
  rw [spelled, List.flatMap_cons, List.head?_append, front]
  rfl

theorem any_head?_spelled {kind : TokenKind} {text : String} {b : UInt8} (front : (encode text).head? = some b)
    {test : UInt8 → Bool} (other : test b = false) (behind : List (TokenKind × String)) :
    (spelled ((kind, text) :: behind)).head?.any test = false := by
  rw [head?_spelled front, Option.any_some, other]

theorem wordLength_spelled {kind : TokenKind} {text : String} {b : UInt8} (front : (encode text).head? = some b)
    (other : inName b = false) (noSlash : b ≠ byte '\\') (behind : List (TokenKind × String)) :
    wordLength (spelled ((kind, text) :: behind)) = 0 := by
  have head : (spelled ((kind, text) :: behind)).head? = some b := head?_spelled front behind
  cases bytes : spelled ((kind, text) :: behind) with
  | nil => rfl
  | cons x rest =>
    obtain rfl : x = b := by simpa [bytes] using head
    rw [wordLength, other, beq_false_of_ne noSlash, Bool.false_and, Bool.or_self, if_neg Bool.false_ne_true]

/-! ## Tokens of what was written -/

section

variable {written : List (TokenKind × String)} {i : Nat} {kind : TokenKind} {text : String}

theorem ReadBack.spans (h : ReadBack {} written) : spans (spelled written) = written.map fun p => encode p.2 := by
  have bytes := congrArg (List.map Prod.snd) h.lexemesFrom
  rw [List.map_map, List.map_map] at bytes
  exact bytes

theorem ReadBack.size_tokenize (h : ReadBack {} written) : (tokenize (spelled written)).size = written.length := by
  rw [Lexer.size_tokenize, h.spans, List.length_map]

theorem ReadBack.kindAt? (h : ReadBack {} written) (hi : written[i]? = some (kind, text)) :
    (tokenize (spelled written)).kindAt? i = some kind := by
  have kinds := congrArg (List.map Prod.fst) h.lexemesFrom
  rw [List.map_map, List.map_map] at kinds
  have same : (lexemes (spelled written)).map Lexeme.kind = written.map Prod.fst := kinds
  rw [kindAt?_tokenize, kinds_sweep, same, List.getElem?_map, hi]
  rfl

/-- What was written has one token for each lexeme, which starts behind the ones before it. -/
theorem ReadBack.exists_token (h : ReadBack {} written) (hi : written[i]? = some (kind, text)) :
    ∃ t, (tokenize (spelled written))[i]? = some t ∧ t.kind = kind ∧ t.text = text ∧
      t.position = Position.start.after (spelled (written.take i)) := by
  obtain ⟨t, ht, same⟩ := Option.map_eq_some_iff.1 (h.kindAt? hi)
  obtain ⟨l, token⟩ := exists_isToken ht
  have bytes : l.bytes = encode text := by
    have span := token.span
    rw [h.spans, List.getElem?_map, hi] at span
    exact (Option.some.inj span).symm
  refine ⟨t, ht, same, ?_, ?_⟩
  · rw [token.text, bytes, decodeLossy_encode]
  · rw [token.position, take_spanStart, h.spans, ← List.map_take, ← List.flatMap_def, spelled]

end

end Lexer

end PhpRename
