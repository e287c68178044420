import PhpRename.Proofs.Lexer.Heredoc

/-!
# Other names in a sequence of lexemes

Names are put in the place of names in what is read as it is written. A lexeme that stays is read as
before, since what follows it is alike; a name that is put in is read as a name. A number is the one
lexeme that goes on with a name, where that starts with a letter of ASCII; and a short open tag goes on with
the letters of the long one.
-/

set_option autoImplicit false

namespace PhpRename.Lexer

open Ascii Utf8

/-! ## A lexeme that stays -/

section

variable {r r' : Bytes}

theorem spaces_alike (alike : Alike r r') (xs : Bytes) (h : ((xs ++ r).takeWhile isSpace).length = xs.length) :
    ((xs ++ r').takeWhile isSpace).length = xs.length := by
  have marks : ∀ b : UInt8, startsName b = true → isSpace b = false := by decide +kernel
  rw [← ((alike.append xs).run marks).1, h]

theorem names_alike (alike : Alike r r') (xs : Bytes) (h : ((xs ++ r).takeWhile inName).length = xs.length) :
    ((xs ++ r').takeWhile inName).length = xs.length := by
  induction xs with
  | nil =>
    have none : r.takeWhile inName = [] := List.length_eq_zero_iff.1 h
    have none' : (r'.takeWhile inName).isEmpty = true := by rw [← alike.names.1, none, List.isEmpty_nil]
    rw [List.nil_append, List.isEmpty_iff.1 none', List.length_nil]
  | cons x xs ih =>
    rw [List.cons_append, List.takeWhile_cons] at h ⊢
    split at h
    · rename_i name
      rw [if_pos name, List.length_cons, ih (Nat.succ.inj h), List.length_cons]
    · cases h

/-- Operators are told apart by marks alone. -/
theorem scanOperator_alike (alike : Alike r r') (b : UInt8) (tail : Bytes) :
    scanOperator b (tail ++ r) = scanOperator b (tail ++ r') := by
  have marks : (longOperators.all fun op => (encode op.1).all fun b => !startsName b) = true := by decide +kernel
  have same : ∀ op ∈ longOperators, startsWith op.1 (b :: (tail ++ r)) = startsWith op.1 (b :: (tail ++ r')) := by
    intro op mem
    apply (alike.append (b :: tail)).startsWith
    intro c inside
    have noName := List.all_eq_true.1 (List.all_eq_true.1 marks op mem) c inside
    rwa [Bool.not_eq_true'] at noName
  have found : longOperators.find? (fun op => startsWith op.1 (b :: (tail ++ r))) =
      longOperators.find? (fun op => startsWith op.1 (b :: (tail ++ r'))) := by
    rw [← List.head?_filter, ← List.head?_filter, List.filter_congr same]
  rw [scanOperator, scanOperator, found]

end

/-- A lexeme of code that is no number is measured whichever names follow, and a number where it goes on in
neither. -/
theorem scanCode_alike {last : Option TokenKind} {b : UInt8} {tail r r' : Bytes} {kind : TokenKind} (alike : Alike r r')
    (number : kind = .number → numberLength r = 0 → numberLength r' = 0)
    (h : scanCode last b (tail ++ r) = (kind, tail.length + 1)) :
    scanCode last b (tail ++ r') = (kind, tail.length + 1) := by
  have whole := alike.append (b :: tail)
  have marks : ∀ text ∈ ["?>", "#[", "//", "/*", "/**", "<<<"], (encode text).all (!startsName ·) = true := by
    decide +kernel
  have same : ∀ text ∈ ["?>", "#[", "//", "/*", "/**", "<<<"],
      startsWith text (b :: (tail ++ r)) = startsWith text (b :: (tail ++ r')) := by
    intro text mem
    apply whole.startsWith
    intro c inside
    have noName := List.all_eq_true.1 (marks text mem) c inside
    rwa [Bool.not_eq_true'] at noName
  have follows := (alike.append tail).nameFollows
  rw [scanCode] at h ⊢
  rw [← same "?>" (by decide), ← same "#[" (by decide), ← same "//" (by decide), ← same "/*" (by decide),
    ← same "/**" (by decide), ← same "<<<" (by decide), ← follows]
  by_cases tag : startsWith "?>" (b :: (tail ++ r)) = true
  · rwa [if_pos tag] at h ⊢
  rw [if_neg tag] at h ⊢
  by_cases space : isSpace b = true
  · rw [if_pos space, Prod.mk.injEq] at h ⊢
    exact ⟨h.1, spaces_alike alike (b :: tail) h.2⟩
  rw [if_neg space] at h ⊢
  by_cases bracket : startsWith "#[" (b :: (tail ++ r)) = true
  · rwa [if_pos bracket] at h ⊢
  rw [if_neg bracket] at h ⊢
  by_cases comment : (b == byte '#' || startsWith "//" (b :: (tail ++ r))) = true
  · rw [if_pos comment, Prod.mk.injEq] at h ⊢
    exact ⟨h.1, lineCommentLength_alike alike (b :: tail) h.2⟩
  rw [if_neg comment] at h ⊢
  by_cases block : startsWith "/*" (b :: (tail ++ r)) = true
  · rw [if_pos block] at h ⊢
    obtain ⟨doc, length⟩ := Prod.mk.inj h
    have length' : blockCommentLength (b :: (tail ++ r')) = tail.length + 1 :=
      blockCommentLength_alike alike (b :: tail) length
    rw [length] at doc
    simp only [length', doc]
  rw [if_neg block] at h ⊢
  by_cases dollar : (b == byte '$' && nameFollows (tail ++ r)) = true
  · rw [if_pos dollar, Prod.mk.injEq] at h ⊢
    exact ⟨h.1, by rw [names_alike alike tail (by omega), Nat.add_comm]⟩
  rw [if_neg dollar] at h ⊢
  by_cases name : (startsName b || (b == byte '\\' && nameFollows (tail ++ r))) = true
  · rw [if_pos name] at h ⊢
    obtain ⟨word, length⟩ := Prod.mk.inj h
    have length' : wordLength (b :: (tail ++ r')) = tail.length + 1 := wordLength_alike alike (b :: tail) length
    rw [length, List.take_succ_cons, List.take_left] at word
    simp only [length', List.take_succ_cons, List.take_left, word]
  rw [if_neg name] at h ⊢
  by_cases digit : isDigit b = true
  · rw [if_pos digit] at h ⊢
    obtain ⟨rfl, length⟩ := Prod.mk.inj h
    rw [Prod.mk.injEq]
    exact ⟨rfl, numberLength_alike alike (number rfl) (b :: tail) length⟩
  rw [if_neg digit] at h ⊢
  by_cases quote : isQuote b = true
  · rw [if_pos quote, Prod.mk.injEq] at h ⊢
    exact ⟨h.1, by rw [quotedLength_alike alike tail (by omega), Nat.add_comm]⟩
  rw [if_neg quote] at h ⊢
  rw [← scanOperator_alike alike]
  by_cases mark : startsWith "<<<" (b :: (tail ++ r)) = true
  · rw [if_pos mark] at h ⊢
    cases length : heredocLength? (b :: (tail ++ r)) with
    | none =>
      have none' : heredocLength? (b :: (tail ++ r')) = none := heredocLength?_none_alike whole mark length
      rw [length] at h
      rw [none']
      exact h
    | some n =>
      rw [length] at h
      obtain ⟨rfl, rfl⟩ := Prod.mk.inj h
      have length' : heredocLength? (b :: (tail ++ r')) = some (tail.length + 1) :=
        heredocLength?_alike alike (b :: tail) mark length
      rw [length']
  · rwa [if_neg mark] at h ⊢

/-! ## Open tags -/

/-- An open tag that is not the short one. -/
def IsLongTag (text : String) : Prop := sameIgnoringCase text "<?php" = true ∨ text = "<?="

instance (text : String) : Decidable (IsLongTag text) := inferInstanceAs (Decidable (_ ∨ _))

theorem length_encodeChars {cs : List Char} (ascii : ∀ c ∈ cs, c.toNat < 0x80) : (encodeChars cs).length = cs.length := by
  induction cs with
  | nil => rfl
  | cons c cs ih =>
    rw [encodeChars_cons, List.length_append, encode_one (ascii c (List.mem_cons_self ..)),
      ih fun d mem => ascii d (List.mem_cons_of_mem c mem), List.length_singleton, List.length_cons, Nat.add_comm]

/-- The long tag has five bytes in any letter case. -/
theorem length_encode_tag {text : String} (h : sameIgnoringCase text "<?php" = true) : (encode text).length = 5 := by
  rw [sameIgnoringCase_iff] at h
  have folded : text.toList.map Char.toLower = ['<', '?', 'p', 'h', 'p'] := by
    simpa [lower] using congrArg String.toList h
  have ascii : ∀ c ∈ text.toList, c.toNat < 0x80 := by
    intro c mem
    have small : c.toLower ∈ ['<', '?', 'p', 'h', 'p'] := by
      rw [← folded]
      exact List.mem_map_of_mem mem
    have tag : ∀ d ∈ ['<', '?', 'p', 'h', 'p'], d.toNat < 0x80 := by simp
    exact ascii_of_toLower rfl (tag _ small)
  have count := congrArg List.length folded
  rw [List.length_map] at count
  rw [encode, length_encodeChars ascii, count]
  rfl

theorem echoTag_differs (rest : Bytes) : sameIgnoringCase (decodeLossy (encode "<?=" ++ rest)) "<?php" = false := by
  rw [Bool.eq_false_iff]
  intro same
  rw [sameIgnoringCase_iff] at same
  have chars : (decodeLossy (encode "<?=" ++ rest)).toList = ['<', '?', '='] ++ (cut rest).map Piece.shown := by
    rw [toList_decodeLossy, encode, cut_encodeChars_append, List.map_append, List.map_map]
    rfl
  have folded := congrArg String.toList same
  rw [lower, lower, String.toList_ofList, String.toList_ofList, chars] at folded
  -- The third characters differ.
  have third := congrArg (·[2]?) folded
  cases third

/-- A lexeme of inline text is measured whichever names follow, unless it is a short open tag. -/
theorem scanHtml_alike {b : UInt8} {tail r r' : Bytes} {kind : TokenKind} {text : String} (alike : Alike r r')
    (bytes : encode text = b :: tail) (tag : kind = .openTag → IsLongTag text)
    (h : scanHtml b (tail ++ r) = (kind, tail.length + 1)) : scanHtml b (tail ++ r') = (kind, tail.length + 1) := by
  have marks : ∀ c ∈ encode "<?", startsName c = false := by decide +kernel
  have same := (alike.append (b :: tail)).startsWith marks
  rw [List.cons_append, List.cons_append] at same
  rw [scanHtml] at h ⊢
  rw [← same]
  by_cases mark : startsWith "<?" (b :: (tail ++ r)) = true
  · rw [if_pos mark] at h ⊢
    have opens : kind = .openTag := by
      split at h
      · exact (Prod.mk.inj h).1.symm
      · split at h <;> exact (Prod.mk.inj h).1.symm
    have whole : b :: (tail ++ r') = encode text ++ r' := by rw [bytes, List.cons_append]
    rw [whole]
    obtain long | rfl := tag opens
    · have length := length_encode_tag long
      rw [List.take_left' length, decodeLossy_encode, if_pos long, opens]
      rw [bytes, List.length_cons] at length
      rw [length]
    · have front : (encode "<?=" ++ r').take 5 = encode "<?=" ++ r'.take 2 := rfl
      have echo : startsWith "<?=" (encode "<?=" ++ r') = true := startsWith_iff.2 ⟨r', rfl⟩
      have length : (encode "<?=").length = 3 := by decide
      rw [bytes, List.length_cons] at length
      rw [front, echoTag_differs, if_neg Bool.false_ne_true, if_pos echo, opens, length]
  · rw [if_neg mark, Prod.mk.injEq] at h ⊢
    exact ⟨h.1, htmlLength_alike alike (b :: tail) h.2⟩

/-- A lexeme that stays is read as before. -/
theorem Reads.alike {c : Context} {kind : TokenKind} {text : String} {r r' : Bytes} (h : Reads c kind text r)
    (alike : Alike r r') (number : kind = .number → numberLength r = 0 → numberLength r' = 0)
    (tag : kind = .openTag → IsLongTag text) : Reads c kind text r' := by
  obtain ⟨b, tail, bytes, read⟩ := h
  refine ⟨b, tail, bytes, ?_⟩
  rw [scan] at read ⊢
  split at read
  · rename_i code
    rw [if_pos code]
    exact scanCode_alike alike number read
  · rename_i html
    rw [if_neg html]
    exact scanHtml_alike alike bytes tag read

/-! ## A name that is put in -/

/-- Whether a byte string starts with a word. -/
def startsWord : Bytes → Bool
  | [] => false
  | b :: rest => startsName b || (b == byte '\\' && nameFollows rest)

theorem Alike.startsWord {r r' : Bytes} (alike : Alike r r') : startsWord r = startsWord r' := by
  cases alike with
  | nil => rfl
  | same b rest => rw [Lexer.startsWord, Lexer.startsWord, rest.nameFollows]
  | name starts starts' => rw [Lexer.startsWord, Lexer.startsWord, starts, starts', Bool.true_or, Bool.true_or]

theorem startsWord_of_identifier {last : Option TokenKind} {b : UInt8} {rest : Bytes}
    (h : (scanCode last b rest).1 = .identifier) : startsWord (b :: rest) = true := by
  have lexical := scanCode_lexeme last b rest
  generalize scanCode last b rest = lexeme at lexical h
  cases lexical with
  | word name => exact name
  | blockComment comment other => exact absurd h other
  | operator noName => exact absurd h (scanOperator_ne_identifier b rest)
  | closeTag | whitespace | attributeList | lineComment | dollarName | number | quoted | heredoc => cases h

theorem scanCode_word {last : Option TokenKind} {b : UInt8} {rest : Bytes} (word : startsWord (b :: rest) = true) :
    scanCode last b rest = (wordKind last ((b :: rest).take (wordLength (b :: rest))), wordLength (b :: rest)) := by
  have plain : isPlain b = true ∧ b ≠ byte '$' := by
    rw [startsWord, Bool.or_eq_true, Bool.and_eq_true, beq_iff_eq] at word
    obtain starts | ⟨rfl, -⟩ := word
    · exact plain_of_startsName b starts
    · decide
  rw [startsWord] at word
  rw [scanCode_plain plain.1, beq_false_of_ne plain.2, Bool.false_and, if_neg Bool.false_ne_true, if_pos word]

section

variable {q old new : String} {r r' : Bytes} (isOld : Name.IsLabel old) (isNew : Name.IsLabel new)
include isOld isNew

/-- A label in the place of a label. -/
theorem Alike.labels (alike : Alike r r') : Alike (encode old ++ r) (encode new ++ r') := by
  obtain ⟨x, xs, oldBytes, starts⟩ := isOld.exists_encode
  obtain ⟨y, ys, newBytes, starts'⟩ := isNew.exists_encode
  have inside : ∀ b ∈ xs, inName b = true := by
    intro b mem
    apply isOld.inName_of_mem_encode
    rw [oldBytes]
    exact List.mem_cons_of_mem x mem
  have inside' : ∀ b ∈ ys, inName b = true := by
    intro b mem
    apply isNew.inName_of_mem_encode
    rw [newBytes]
    exact List.mem_cons_of_mem y mem
  rw [oldBytes, newBytes]
  exact .name starts starts' inside inside' alike

/-- The name that is put in is read as a name. -/
theorem Reads.renamed {c : Context} (free : Name.classFault? new = none) (qualifies : Name.IsQualifier q)
    (alike : Alike r r') (h : Reads c .identifier (q ++ old) r) : Reads c .identifier (q ++ new) r' := by
  obtain ⟨b, tail, bytes, read⟩ := h
  have kind : (scan c b (tail ++ r)).1 = .identifier := by rw [read]
  have length := scan_identifier kind
  have code : c.inCode = true := by
    by_contra html
    rw [scan, if_neg html] at kind
    exact scanHtml_ne_identifier b (tail ++ r) kind
  have starts : startsWord (b :: (tail ++ r)) = true := by
    rw [scan, if_pos code] at kind
    exact startsWord_of_identifier kind
  have whole : b :: (tail ++ r) = encode q ++ (encode old ++ r) := by
    rw [← List.append_assoc, ← encode_append, bytes, List.cons_append]
  have size : tail.length + 1 = (encode q).length + (encode old).length := by
    rw [← List.length_append, ← encode_append, bytes, List.length_cons]
  have inner := alike.labels isOld isNew
  -- The old word goes as far as the old name, and so does the new one as far as the new name.
  rw [read, whole] at length
  have stop : wordLength r = 0 := by
    apply wordLength_behind (encode q ++ encode old)
    rw [List.append_assoc, ← length, List.length_append, size]
  have front := wordLength_front inner (encode q) (by omega)
  rw [wordLength_append (fun _ => isNew.inName_of_mem_encode) (wordLength_eq_zero alike stop)] at front
  obtain ⟨y, ys, newBytes, -⟩ := isNew.exists_encode
  obtain ⟨b', tail', bytes'⟩ : ∃ b' tail', encode (q ++ new) = b' :: tail' := by
    apply List.exists_cons_of_ne_nil
    rw [encode_append, newBytes]
    exact List.append_ne_nil_of_right_ne_nil _ (List.cons_ne_nil y ys)
  have whole' : b' :: (tail' ++ r') = encode q ++ (encode new ++ r') := by
    rw [← List.append_assoc, ← encode_append, bytes', List.cons_append]
  have size' : wordLength (b' :: (tail' ++ r')) = tail'.length + 1 := by
    rw [whole', front, ← List.length_append, ← encode_append, bytes', List.length_cons]
  have starts' : startsWord (b' :: (tail' ++ r')) = true := by
    rw [whole', ← (inner.append (encode q)).startsWord, ← whole, starts]
  have name : wordKind c.last (encode (q ++ new)) = .identifier := by
    obtain rfl | ⟨before, rfl⟩ := qualifies
    · rw [String.empty_append]
      exact wordKind_of_classFault? c.last free
    · have slash : byte '\\' ∈ encode (before ++ "\\" ++ new) := by
        rw [encode_append, encode_append]
        exact List.mem_append_left _ (List.mem_append_right _ (by decide))
      rw [wordKind, List.contains_iff_mem.2 slash, Bool.true_or, if_pos rfl]
  refine ⟨b', tail', bytes', ?_⟩
  rw [scan, if_pos code, scanCode_word starts', size', List.take_succ_cons, List.take_left, ← bytes', name]

end

/-! ## Sequences of lexemes -/

/-- The same lexemes but for some names: where the old name stands, alone or behind a namespace, the new one
may. Behind a number the old name alone gives way only to a name that is no part of a number. -/
inductive Renamed (old new : String) :
    Option TokenKind → List (TokenKind × String) → List (TokenKind × String) → Prop where
  | nil (before : Option TokenKind) : Renamed old new before [] []
  | keep (before : Option TokenKind) (kind : TokenKind) (text : String) {written written' : List (TokenKind × String)}
      (rest : Renamed old new (some kind) written written') :
      Renamed old new before ((kind, text) :: written) ((kind, text) :: written')
  | rename {before : Option TokenKind} {q : String} {written written' : List (TokenKind × String)}
      (qualifies : Name.IsQualifier q) (apart : before = some .number → q = "" → Name.StartsBeyondAscii new)
      (rest : Renamed old new (some .identifier) written written') :
      Renamed old new before ((.identifier, q ++ old) :: written) ((.identifier, q ++ new) :: written')

theorem spelled_cons (kind : TokenKind) (text : String) (written : List (TokenKind × String)) :
    spelled ((kind, text) :: written) = encode text ++ spelled written := by
  rw [spelled, List.flatMap_cons, ← spelled]

section

variable {old new : String} (isOld : Name.IsLabel old) (isNew : Name.IsLabel new)
  {before : Option TokenKind} {written written' : List (TokenKind × String)}
include isOld isNew

theorem Renamed.alike (h : Renamed old new before written written') : Alike (spelled written) (spelled written') := by
  induction h with
  | nil => exact .nil
  | keep before kind text rest ih =>
    rw [spelled_cons, spelled_cons]
    exact ih.append (encode text)
  | @rename before q written written' qualifies apart rest ih =>
    rw [spelled_cons, spelled_cons, encode_append, encode_append, List.append_assoc, List.append_assoc]
    exact (ih.labels isOld isNew).append (encode q)

/-- Numbers do not go on with what is put in behind them. -/
theorem Renamed.numberLength (h : Renamed old new (some .number) written written') {c : Context}
    (read : ReadBack c written) (stop : numberLength (spelled written) = 0) : numberLength (spelled written') = 0 := by
  cases h with
  | nil => exact stop
  | @keep _ kind text written written' rest =>
    cases read with
    | cons head tail =>
      obtain ⟨b, more, bytes, -⟩ := head
      rw [spelled_cons, bytes] at stop ⊢
      exact numberLength_eq_zero ((rest.alike isOld isNew).append more) stop
  | @rename _ q written written' qualifies apart rest =>
    rw [spelled_cons, encode_append, List.append_assoc] at stop ⊢
    have inner := (rest.alike isOld isNew).labels isOld isNew
    obtain rfl | ⟨front, rfl⟩ := qualifies
    · obtain ⟨b, more, bytes, beyond⟩ := (apart rfl rfl).exists_encode
      have noNumber : ∀ b : UInt8, 0x80 ≤ b → (isLetter b || isDigit b || b == byte '_') = false ∧ b ≠ byte '.' := by
        decide +kernel
      obtain ⟨noWord, noPoint⟩ := noNumber b beyond
      rw [bytes]
      show Lexer.numberLength (b :: (more ++ spelled written')) = 0
      rw [Lexer.numberLength, noWord, beq_false_of_ne noPoint, Bool.false_and, Bool.or_self, if_neg Bool.false_ne_true]
    · obtain ⟨b, more, bytes⟩ : ∃ b more, encode (front ++ "\\") = b :: more := by
        apply List.exists_cons_of_ne_nil
        rw [encode_append]
        exact List.append_ne_nil_of_right_ne_nil _ (by decide)
      rw [bytes] at stop ⊢
      exact numberLength_eq_zero (inner.append more) stop

/-- **What is renamed is read as it is written.** -/
theorem ReadBack.renamed (free : Name.classFault? new = none) {c : Context} (read : ReadBack c written)
    (h : Renamed old new before written written') (tags : ∀ p ∈ written, p.1 = .openTag → IsLongTag p.2) :
    ReadBack c written' := by
  induction h generalizing c with
  | nil => exact .nil c
  | @keep before kind text written written' rest ih =>
    cases read with
    | cons head tail =>
      have later : ∀ p ∈ written, p.1 = .openTag → IsLongTag p.2 := fun p mem => tags p (List.mem_cons_of_mem _ mem)
      refine .cons (head.alike (rest.alike isOld isNew) ?_ (tags _ (List.mem_cons_self ..))) (ih tail later)
      rintro rfl stop
      exact rest.numberLength isOld isNew tail stop
  | @rename before q written written' qualifies apart rest ih =>
    cases read with
    | cons head tail =>
      have later : ∀ p ∈ written, p.1 = .openTag → IsLongTag p.2 := fun p mem => tags p (List.mem_cons_of_mem _ mem)
      exact .cons (head.renamed isOld isNew free qualifies (rest.alike isOld isNew)) (ih tail later)

end

end PhpRename.Lexer
