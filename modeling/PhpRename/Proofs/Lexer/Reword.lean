import PhpRename.Proofs.Lexer.Word
import PhpRename.Proofs.Token.Cursor

/-!
# Sources with other words

A word is read as far as it goes whatever stands in front of it; only its kind is told by the last significant
token. So a source of any bytes may have other words in the place of words, reserved ones too, and still has the
same lexemes but for the kinds of its words: `lexemes_of_reworded`. What these are is `wordKind_of_word`.
-/

set_option autoImplicit false

namespace PhpRename.Lexer

open Ascii Utf8

/-! ## What stands in front of a lexeme -/

section

variable {last last' : Option TokenKind} {b : UInt8} {rest : Bytes} {kind : TokenKind} {n : Nat}

theorem scanCode_of_noWord (other : startsWord (b :: rest) = false) :
    scanCode last b rest = scanCode last' b rest := by
  rw [startsWord] at other
  rw [scanCode, scanCode]
  simp only [other, Bool.false_eq_true, if_false]

/-- What stands in front of a lexeme of code tells its kind when it is a word, and nothing else. -/
theorem scanCode_last (h : scanCode last b rest = (kind, n)) : scanCode last' b rest =
    (if isWord kind then wordKind last' ((b :: rest).take n) else kind, n) := by
  by_cases word : startsWord (b :: rest) = true
  · rw [scanCode_word word] at h ⊢
    obtain ⟨rfl, rfl⟩ := Prod.mk.inj h
    rw [if_pos (isWord_wordKind ..)]
  · have same : scanCode last b rest = scanCode last' b rest := scanCode_of_noWord (Bool.eq_false_iff.2 word)
    have other : isWord kind = false := by
      refine Bool.eq_false_iff.2 fun isWord => word ?_
      have front : Lexer.isWord (scan ⟨true, last⟩ b rest).1 = true := by rw [scan, if_pos rfl, h, isWord]
      exact (scan_word front).1
    rw [← same, h, other, if_neg Bool.false_ne_true]

theorem scan_last {c c' : Context} (code : c.inCode = c'.inCode) (h : scan c b rest = (kind, n)) : scan c' b rest =
    (if isWord kind then wordKind c'.last ((b :: rest).take n) else kind, n) := by
  rw [scan] at h ⊢
  rw [← code]
  split at h
  next inCode =>
    rw [if_pos inCode]
    exact scanCode_last h
  next html =>
    have other := isWord_scanHtml b rest
    rw [h] at other
    rw [if_neg html, h, other, if_neg Bool.false_ne_true]

end

/-! ## Open tags -/

/-- The long open tag ends with three letters. -/
theorem exists_letters {bs : Bytes} (h : sameIgnoringCase (decodeLossy (bs.take 5)) "<?php" = true) :
    ∃ p q r rest, bs = 0x3c :: 0x3f :: p :: q :: r :: rest ∧
      isLetter p = true ∧ isLetter q = true ∧ isLetter r = true := by
  have folded : (decodeLossy (bs.take 5)).toList.map Char.toLower = ['<', '?', 'p', 'h', 'p'] := by
    simpa [lower] using congrArg String.toList ((sameIgnoringCase_iff _ _).1 h)
  have ascii : ∀ c ∈ (decodeLossy (bs.take 5)).toList, c.toNat < 0x80 := by
    intro c mem
    have small : c.toLower ∈ ['<', '?', 'p', 'h', 'p'] := folded ▸ List.mem_map_of_mem mem
    have tag : ∀ d ∈ ['<', '?', 'p', 'h', 'p'], d.toNat < 0x80 := by simp
    exact ascii_of_toLower rfl (tag _ small)
  have front : encode (decodeLossy (bs.take 5)) = bs.take 5 :=
    encode_decodeLossy_of_notMem fun mem => absurd (ascii _ mem) (by decide)
  have table : ∀ n < 128, ((Char.ofNat n).toLower = '<' → UInt8.ofNat n = 0x3c) ∧
      ((Char.ofNat n).toLower = '?' → UInt8.ofNat n = 0x3f) ∧
      ((Char.ofNat n).toLower = 'p' ∨ (Char.ofNat n).toLower = 'h' → isLetter (UInt8.ofNat n) = true) := by
    decide +kernel
  have bytes : ∀ c : Char, c.toNat < 0x80 → (c.toLower = '<' → UInt8.ofNat c.toNat = 0x3c) ∧
      (c.toLower = '?' → UInt8.ofNat c.toNat = 0x3f) ∧
      (c.toLower = 'p' ∨ c.toLower = 'h' → isLetter (UInt8.ofNat c.toNat) = true) := by
    intro c small
    have entry := table c.toNat small
    rwa [Char.ofNat_toNat] at entry
  have whole := List.take_append_drop 5 bs
  rw [← front, encode] at whole
  generalize (decodeLossy (bs.take 5)).toList = cs at folded ascii whole
  obtain _ | ⟨a, _ | ⟨b, _ | ⟨c, _ | ⟨d, _ | ⟨e, _ | ⟨f, cs⟩⟩⟩⟩⟩⟩ := cs
  case cons.cons.cons.cons.cons.nil =>
    simp only [List.map_cons, List.map_nil, List.cons.injEq, and_true] at folded
    obtain ⟨ha, hb, hc, hd, he⟩ := folded
    simp only [List.mem_cons, List.not_mem_nil, or_false, forall_eq_or_imp, forall_eq] at ascii
    obtain ⟨small_a, small_b, small_c, small_d, small_e⟩ := ascii
    simp only [encodeChars_cons, encode_one, small_a, small_b, small_c, small_d, small_e] at whole
    rw [(bytes a small_a).1 ha, (bytes b small_b).2.1 hb] at whole
    exact ⟨_, _, _, _, whole.symm, (bytes c small_c).2.2 (.inl hc), (bytes d small_d).2.2 (.inr hd),
      (bytes e small_e).2.2 (.inl he)⟩
  all_goals simp at folded

/-- Behind the short echo tag no letter makes a long tag of it. -/
theorem noLongTag_of_echo {bs : Bytes} (echo : startsWith "<?=" bs = true) :
    sameIgnoringCase (decodeLossy (bs.take 5)) "<?php" = false := by
  obtain ⟨rest, rfl⟩ := startsWith_iff.1 echo
  exact echoTag_differs (rest.take 2)

/-- A lexeme of inline text is measured whichever names follow, unless letters make a short open tag long. -/
theorem scanHtml_alike_of_letters {b : UInt8} {tail r r' : Bytes} {kind : TokenKind} (alike : Alike r r')
    (letters : kind = .openTag → ∀ p q s rest, r' = p :: q :: s :: rest → isLetter p = true → isLetter q = true →
      isLetter s = true → ∃ rest', r = p :: q :: s :: rest')
    (h : scanHtml b (tail ++ r) = (kind, tail.length + 1)) : scanHtml b (tail ++ r') = (kind, tail.length + 1) := by
  have marks : ∀ c ∈ encode "<?", startsName c = false := by decide +kernel
  have echoMarks : ∀ c ∈ encode "<?=", startsName c = false := by decide +kernel
  have whole := alike.append (b :: tail)
  rw [List.cons_append, List.cons_append] at whole
  rw [scanHtml] at h ⊢
  rw [← whole.startsWith marks, ← whole.startsWith echoMarks]
  by_cases mark : startsWith "<?" (b :: (tail ++ r)) = true
  · rw [if_pos mark] at h ⊢
    by_cases long : sameIgnoringCase (decodeLossy ((b :: (tail ++ r)).take 5)) "<?php" = true
    · rw [if_pos long] at h
      have size : (b :: tail).length = 5 := (Prod.mk.inj h).2.symm
      have five : ∀ rest, (b :: (tail ++ rest)).take 5 = b :: tail := fun rest => List.take_left' size
      rw [five] at long
      rw [five, if_pos long]
      exact h
    rw [if_neg long] at h
    have short : ¬ sameIgnoringCase (decodeLossy ((b :: (tail ++ r')).take 5)) "<?php" = true := by
      intro long'
      split at h
      next echo =>
        rw [whole.startsWith echoMarks] at echo
        rw [noLongTag_of_echo echo] at long'
        cases long'
      next other =>
        obtain ⟨opens, size⟩ := Prod.mk.inj h
        obtain ⟨c, rfl⟩ := List.length_eq_one_iff.1 (Nat.succ.inj size).symm
        obtain ⟨p, q, s, rest, bytes, isP, isQ, isS⟩ := exists_letters long'
        obtain ⟨-, bytes⟩ := List.cons.inj bytes
        obtain ⟨-, bytes⟩ := List.cons.inj bytes
        obtain ⟨rest', rfl⟩ := letters opens.symm p q s rest bytes isP isQ isS
        subst bytes
        exact long long'
    rw [if_neg short]
    exact h
  · rw [if_neg mark, Prod.mk.injEq] at h ⊢
    exact ⟨h.1, htmlLength_alike alike (b :: tail) h.2⟩

/-! ## Sequences of lexemes with other words -/

/-- Lexemes by their kinds and bytes. -/
def Lexeme.pair (l : Lexeme) : TokenKind × Bytes := (l.kind, l.bytes)

/-- The bytes of a sequence of lexemes. -/
def joined (written : List (TokenKind × Bytes)) : Bytes := written.flatMap Prod.snd

/-- The same lexemes but for some words: where the old name stands as a word of its own, directly behind neither a
number nor an open tag, the new one may. -/
inductive Reworded (old new : String) :
    Option TokenKind → List (TokenKind × Bytes) → List (TokenKind × Bytes) → Prop where
  | nil (before : Option TokenKind) : Reworded old new before [] []
  | keep (before : Option TokenKind) (kind : TokenKind) (bytes : Bytes) {written written' : List (TokenKind × Bytes)}
      (rest : Reworded old new (some kind) written written') :
      Reworded old new before ((kind, bytes) :: written) ((kind, bytes) :: written')
  | put {before : Option TokenKind} {written written' : List (TokenKind × Bytes)} (noNumber : before ≠ some .number)
      (noTag : before ≠ some .openTag) (rest : Reworded old new (some .identifier) written written') :
      Reworded old new before ((.identifier, encode old) :: written) ((.identifier, encode new) :: written')

theorem lexemesFrom_cons {c : Context} {b : UInt8} {rest : Bytes} {kind : TokenKind} {n : Nat}
    (scanned : scan c b rest = (kind, n)) : lexemesFrom c (b :: rest) =
      ⟨kind, b, rest.take (n - 1)⟩ :: lexemesFrom (c.after kind) (rest.drop (n - 1)) := by
  rw [lexemesFrom, scanned]

theorem length_of_scan {c : Context} {b : UInt8} {rest : Bytes} {kind : TokenKind} {n : Nat}
    (scanned : scan c b rest = (kind, n)) : (b :: rest.take (n - 1)).length = n := by
  have pos := (scan_ends c b rest).pos
  have le := scan_le c b rest
  rw [scanned] at pos le
  rw [List.length_cons] at le ⊢
  rw [List.length_take]
  simp only at pos le
  omega

theorem joined_cons (kind : TokenKind) (bytes : Bytes) (written : List (TokenKind × Bytes)) :
    joined ((kind, bytes) :: written) = bytes ++ joined written := by
  rw [joined, List.flatMap_cons, ← joined]

theorem joined_lexemesFrom (c : Context) (bs : Bytes) : joined ((lexemesFrom c bs).map Lexeme.pair) = bs := by
  rw [joined, List.flatMap_map]
  exact flatMap_lexemesFrom c bs

/-- The first lexeme and what follows it. -/
theorem exists_scan {c : Context} {bs bytes : Bytes} {kind : TokenKind} {written : List (TokenKind × Bytes)}
    (read : (kind, bytes) :: written = (lexemesFrom c bs).map Lexeme.pair) :
    ∃ b tail, bytes = b :: tail ∧ scan c b (tail ++ joined written) = (kind, tail.length + 1) ∧
      written = (lexemesFrom (c.after kind) (joined written)).map Lexeme.pair := by
  cases bs with
  | nil => rw [lexemesFrom] at read; cases read
  | cons b rest =>
    obtain ⟨k, n, scanned⟩ : ∃ k n, scan c b rest = (k, n) := ⟨_, _, rfl⟩
    rw [lexemesFrom_cons scanned, List.map_cons] at read
    obtain ⟨same, behind⟩ := List.cons.inj read
    obtain ⟨rfl, rfl⟩ := Prod.mk.inj same
    have rest_eq : joined written = rest.drop (n - 1) := by rw [behind, joined_lexemesFrom]
    have size := length_of_scan scanned
    rw [List.length_cons] at size
    refine ⟨b, rest.take (n - 1), rfl, ?_, ?_⟩
    · rw [rest_eq, List.take_append_drop, size]
      exact scanned
    · rw [rest_eq]
      exact behind

section

variable {old new : String} (isOld : Name.IsLabel old) (isNew : Name.IsLabel new)
  {before : Option TokenKind} {written written' : List (TokenKind × Bytes)}
include isOld isNew

theorem Reworded.alike (h : Reworded old new before written written') : Alike (joined written) (joined written') := by
  induction h with
  | nil => exact .nil
  | keep before kind bytes rest ih =>
    rw [joined_cons, joined_cons]
    exact ih.append bytes
  | put noNumber noTag rest ih =>
    rw [joined_cons, joined_cons]
    exact ih.labels isOld isNew

/-- Numbers do not go on with what follows them. -/
theorem Reworded.numberLength (h : Reworded old new (some .number) written written') {c : Context} {r : Bytes}
    (read : written = (lexemesFrom c r).map Lexeme.pair) (stop : numberLength (joined written) = 0) :
    numberLength (joined written') = 0 := by
  cases h with
  | nil => exact stop
  | put noNumber => exact absurd rfl noNumber
  | keep _ kind bytes rest =>
    obtain ⟨b, tail, rfl, -⟩ := exists_scan read
    rw [joined_cons, List.cons_append] at stop ⊢
    exact numberLength_eq_zero ((rest.alike isOld isNew).append tail) stop

/-- Three letters behind an open tag stood there before. -/
theorem Reworded.letters (h : Reworded old new (some .openTag) written written') {c : Context} {r : Bytes}
    (code : c.inCode = true) (read : written = (lexemesFrom c r).map Lexeme.pair) {p q s : UInt8} {rest : Bytes}
    (bytes : joined written' = p :: q :: s :: rest) (isP : isLetter p = true) (isQ : isLetter q = true)
    (isS : isLetter s = true) : ∃ rest', joined written = p :: q :: s :: rest' := by
  cases h with
  | nil => cases bytes
  | put _ noTag => exact absurd rfl noTag
  | @keep _ kind _ written written' kept =>
    have letter : ∀ b : UInt8, isLetter b = true → startsName b = true ∧ inName b = true := by decide +kernel
    obtain ⟨b, tail, rfl, scanned, -⟩ := exists_scan read
    rw [joined_cons] at bytes ⊢
    obtain rfl : b = p := (List.cons.inj bytes).1
    -- A word stands behind the tag, and it has all three letters.
    have word : startsWord (b :: (tail ++ joined written)) = true := by rw [startsWord, (letter b isP).1, Bool.true_or]
    rw [scan, if_pos code, scanCode_word word] at scanned
    have length := wordLength_alike (kept.alike isOld isNew) (b :: tail) (Prod.mk.inj scanned).2
    rw [bytes] at length
    simp only [wordLength, (letter _ isP).2, (letter _ isQ).2, (letter _ isS).2, Bool.true_or, if_true,
      List.length_cons] at length
    obtain _ | ⟨y, _ | ⟨z, more⟩⟩ := tail
    · simp at length
    · simp at length
    · obtain ⟨rfl, rfl, -⟩ : y = q ∧ z = s ∧ _ := by simpa using bytes
      exact ⟨more ++ joined written, rfl⟩

end

/-! ## Kinds but for words -/

/-- A kind without what tells words apart. -/
def broad (kind : TokenKind) : TokenKind := if isWord kind then .identifier else kind

theorem broad_wordKind (last : Option TokenKind) (word : Bytes) : broad (wordKind last word) = .identifier :=
  if_pos (isWord_wordKind last word)

/-- A test that no word passes tells nothing of words. -/
theorem eq_of_broad {kind kind' : TokenKind} (test : TokenKind → Bool) (words : ∀ k, isWord k = true → test k = false)
    (same : broad kind = broad kind') : test kind = test kind' := by
  have blind : ∀ k, test k = test (broad k) := by
    intro k
    rw [broad]
    split
    next word => rw [words k word, words _ rfl]
    next => rfl
  rw [blind, blind kind', same]

theorem isWord_of_broad {kind kind' : TokenKind} (same : broad kind = broad kind') : isWord kind = isWord kind' := by
  have told : ∀ k, isWord k = (broad k == .identifier) := by
    intro k
    rw [broad]
    split
    next word => rw [word]; rfl
    next other => cases k <;> first | rfl | exact absurd rfl other
  rw [told, told, same]

theorem eq_of_broad_of_noWord {kind kind' : TokenKind} (same : broad kind = broad kind') (noWord : isWord kind' = false) :
    kind = kind' := by
  have noWord' := (isWord_of_broad same).trans noWord
  rw [broad, broad, noWord, noWord', if_neg Bool.false_ne_true, if_neg Bool.false_ne_true] at same
  exact same

theorem inCode_after {c c' : Context} (code : c.inCode = c'.inCode) {kind kind' : TokenKind}
    (same : broad kind = broad kind') : (c.after kind).inCode = (c'.after kind').inCode := by
  have opens : (kind == .openTag) = (kind' == .openTag) :=
    eq_of_broad (· == .openTag) (fun k word => by cases k <;> first | rfl | cases word) same
  have closes : (kind == .closeTag) = (kind' == .closeTag) :=
    eq_of_broad (· == .closeTag) (fun k word => by cases k <;> first | rfl | cases word) same
  rw [Context.after, Context.after, opens, closes, code]

/-- One lexeme that stays, whatever its context: what it is but for a kind of word. -/
theorem lexemesFrom_of_scan {c c' : Context} {b : UInt8} {tail r : Bytes} {kind : TokenKind}
    (code : c.inCode = c'.inCode) (h : scan c b (tail ++ r) = (kind, tail.length + 1)) : ∃ kind', broad kind' = broad kind ∧
      lexemesFrom c' (b :: tail ++ r) = ⟨kind', b, tail⟩ :: lexemesFrom (c'.after kind') r := by
  have scanned := scan_last code h
  refine ⟨if isWord kind then wordKind c'.last ((b :: (tail ++ r)).take (tail.length + 1)) else kind, ?_, ?_⟩
  · split
    next word => rw [broad_wordKind, broad, if_pos word]
    next => rfl
  · rw [List.cons_append, lexemesFrom_cons scanned, Nat.add_sub_cancel, List.take_left, List.drop_left]

section

variable {old new : String} (isOld : Name.IsLabel old) (isNew : Name.IsLabel new)
  {before : Option TokenKind} {written written' : List (TokenKind × Bytes)}
include isNew

/-- A word that is put in is read as one. -/
theorem scan_put {c : Context} {b : UInt8} {tail r r' : Bytes} (bytes : encode old = b :: tail) (alike : Alike r r')
    (h : scan c b (tail ++ r) = (.identifier, tail.length + 1)) :
    ∃ b' tail' kind, encode new = b' :: tail' ∧ broad kind = .identifier ∧
      scan c b' (tail' ++ r') = (kind, tail'.length + 1) := by
  obtain ⟨b', tail', bytes', starts⟩ := isNew.exists_encode
  refine ⟨b', tail', _, bytes', broad_wordKind c.last (encode new), ?_⟩
  have length := scan_identifier (by rw [h])
  rw [h] at length
  have whole : b :: (tail ++ r) = encode old ++ r := by rw [bytes, List.cons_append]
  have whole' : b' :: (tail' ++ r') = encode new ++ r' := by rw [bytes', List.cons_append]
  have stop : wordLength r = 0 := by
    apply wordLength_behind (encode old)
    rw [← whole, ← length, bytes, List.length_cons]
  have length' : wordLength (b' :: (tail' ++ r')) = tail'.length + 1 := by
    rw [whole', wordLength_append (fun _ => isNew.inName_of_mem_encode) (wordLength_eq_zero alike stop), bytes',
      List.length_cons]
  have inCode : c.inCode = true := by
    by_contra html
    have kind := scanHtml_ne_identifier b (tail ++ r)
    rw [scan, if_neg html] at h
    exact kind (by rw [h])
  have word : startsWord (b' :: (tail' ++ r')) = true := by rw [startsWord, starts, Bool.true_or]
  rw [scan, if_pos inCode, scanCode_word word, length', List.take_succ_cons, List.take_left, ← bytes']

include isOld

/-- A lexeme that is kept is measured as before. -/
theorem Reworded.scan_keep {kind : TokenKind} (h : Reworded old new (some kind) written written') {c : Context}
    {b : UInt8} {tail r : Bytes} (read : written = (lexemesFrom (c.after kind) r).map Lexeme.pair)
    (scanned : scan c b (tail ++ r) = (kind, tail.length + 1)) :
    scan c b (tail ++ joined written') = (kind, tail.length + 1) := by
  have alike := h.alike isOld isNew
  have whole : joined written = r := by rw [read, joined_lexemesFrom]
  rw [← whole] at scanned
  rw [scan] at scanned ⊢
  split at scanned
  next code =>
    rw [if_pos code]
    refine scanCode_alike alike ?_ scanned
    rintro rfl stop
    exact h.numberLength isOld isNew read stop
  next html =>
    rw [if_neg html]
    refine scanHtml_alike_of_letters alike ?_ scanned
    rintro rfl p q s rest bytes isP isQ isS
    exact h.letters isOld isNew rfl read bytes isP isQ isS

/-- **Other words, the same lexemes.** Where words are put in the place of words, the source is cut as before, and
only the kinds of words may differ. -/
theorem lexemesFrom_reworded (h : Reworded old new before written written') {c c' : Context} {bs : Bytes}
    (read : written = (lexemesFrom c bs).map Lexeme.pair) (code : c.inCode = c'.inCode) :
    (lexemesFrom c' (joined written')).map (fun l => (broad l.kind, l.bytes)) =
      written'.map fun p => (broad p.1, p.2) := by
  induction h generalizing c c' bs with
  | nil => rw [joined, List.flatMap_nil, lexemesFrom]; rfl
  | @keep before kind bytes written written' rest ih =>
    obtain ⟨b, tail, rfl, scanned, behind⟩ := exists_scan read
    obtain ⟨kind', same, lexed⟩ := lexemesFrom_of_scan code (rest.scan_keep isOld isNew behind scanned)
    rw [joined_cons, lexed, List.map_cons, List.map_cons, ih behind (inCode_after code same.symm), same]
    rfl
  | put noNumber noTag rest ih =>
    obtain ⟨b, tail, bytes, scanned, behind⟩ := exists_scan read
    obtain ⟨b', tail', kind, bytes', word, put⟩ := scan_put isNew bytes (rest.alike isOld isNew) scanned
    obtain ⟨kind', same, lexed⟩ := lexemesFrom_of_scan code put
    have name : broad kind' = broad .identifier := by rw [same, word]; rfl
    rw [joined_cons, bytes', lexed, List.map_cons, List.map_cons, ih behind (inCode_after code name.symm), name]
    rfl

end

/-! ## Tokens of sources with other words -/

theorem Reworded.kinds {old new : String} {before : Option TokenKind} {written written' : List (TokenKind × Bytes)}
    (h : Reworded old new before written written') : written'.map Prod.fst = written.map Prod.fst := by
  induction h with
  | nil => rfl
  | keep before kind bytes rest ih => rw [List.map_cons, List.map_cons, ih]
  | put noNumber noTag rest ih => rw [List.map_cons, List.map_cons, ih]

theorem kindAt?_lexemes (source : Bytes) (i : Nat) :
    (tokenize source).kindAt? i = ((lexemes source).map Lexeme.kind)[i]? := by
  rw [kindAt?_tokenize, kinds_sweep]

section

variable {old new : String} (isOld : Name.IsLabel old) (isNew : Name.IsLabel new) {source : Bytes}
  {written' : List (TokenKind × Bytes)} (h : Reworded old new none ((lexemes source).map Lexeme.pair) written')
include isOld isNew h

theorem lexemes_of_reworded :
    (lexemes (joined written')).map (fun l => (broad l.kind, l.bytes)) = written'.map fun p => (broad p.1, p.2) :=
  lexemesFrom_reworded isOld isNew h rfl rfl

theorem spans_of_reworded : spans (joined written') = written'.map Prod.snd := by
  have bytes := congrArg (List.map Prod.snd) (lexemes_of_reworded isOld isNew h)
  rw [List.map_map, List.map_map] at bytes
  exact bytes

/-- The kinds are the old ones but for words. -/
theorem broad_kindAt?_of_reworded (i : Nat) :
    ((tokenize (joined written')).kindAt? i).map broad = ((tokenize source).kindAt? i).map broad := by
  have kinds := congrArg (List.map Prod.fst) (lexemes_of_reworded isOld isNew h)
  have same := congrArg (List.map broad) h.kinds
  rw [List.map_map, List.map_map] at kinds same
  rw [List.map_map] at same
  rw [kindAt?_lexemes, kindAt?_lexemes, ← List.getElem?_map, ← List.getElem?_map, List.map_map, List.map_map]
  exact congrArg (·[i]?) (kinds.trans same)

end

section

variable {ts ts' : Tokens} (same : ∀ i, (ts'.kindAt? i).map broad = (ts.kindAt? i).map broad)
include same

theorem kindSatisfies_of_broad (test : TokenKind → Bool) (blind : ∀ k k', broad k = broad k' → test k = test k')
    (i : Nat) : ts'.kindSatisfies test i = ts.kindSatisfies test i := by
  have same := same i
  rw [Tokens.kindSatisfies, Tokens.kindSatisfies]
  cases token : ts.kindAt? i with
  | none =>
    rw [token] at same
    rw [Option.map_eq_none_iff.1 same]
  | some k =>
    rw [token] at same
    obtain ⟨k', token', alike⟩ := Option.map_eq_some_iff.1 same
    rw [token', Option.any_some, Option.any_some, blind k' k alike]

theorem isAt_of_broad (wanted : TokenKind) (noWord : isWord wanted = false) (i : Nat) :
    ts'.isAt wanted i = ts.isAt wanted i := by
  have test : ∀ ts : Tokens, ts.isAt wanted i = ts.kindSatisfies (· == wanted) i := by
    intro ts
    rw [Tokens.isAt, Tokens.kindSatisfies]
    cases ts.kindAt? i <;> rfl
  rw [test, test]
  refine kindSatisfies_of_broad same _ (fun k k' => eq_of_broad _ fun k word => ?_) i
  exact beq_false_of_ne fun is => by rw [is, noWord] at word; cases word

theorem loud_of_broad (i : Nat) :
    ts'.kindSatisfies (!·.isTrivia) i = ts.kindSatisfies (!·.isTrivia) i := by
  refine kindSatisfies_of_broad same _ (fun k k' alike => congrArg _ (eq_of_broad _ (fun k word => ?_) alike)) i
  cases k <;> first | rfl | cases word

theorem prevSignificant?_of_broad (i : Nat) : ts'.prevSignificant? i = ts.prevSignificant? i :=
  Tokens.prevSignificant?_of_loud (loud_of_broad same) i

theorem nextSignificant?_of_broad (i : Nat) : ts'.nextSignificant? i = ts.nextSignificant? i :=
  Tokens.nextSignificant?_of_loud (loud_of_broad same) i

end

/-! ## What a word is -/

/-- The context in which a lexeme is read. -/
def contextAt (c : Context) (ls : List Lexeme) (i : Nat) : Context :=
  (ls.take i).foldl (fun c l => c.after l.kind) c

theorem wordKind_of_getElem? {c : Context} {bs : Bytes} {i : Nat} {l : Lexeme} (h : (lexemesFrom c bs)[i]? = some l)
    (word : isWord l.kind = true) : l.kind = wordKind (contextAt c (lexemesFrom c bs) i).last l.bytes := by
  fun_induction lexemesFrom c bs generalizing i with
  | case1 => cases h
  | case2 c b rest kind n scanned ih =>
    cases i with
    | zero =>
      obtain rfl := Option.some.inj h
      have again := scan_last (rfl : c.inCode = c.inCode) scanned
      have pos := (scan_ends c b rest).pos
      rw [scanned] at again pos
      rw [if_pos word, List.take_cons pos] at again
      exact (Prod.mk.inj again).1
    | succ i => exact ih h

/-- The last significant kind in the context of a token is that of the significant token in front of it. -/
theorem last_contextAt (source : Bytes) {i : Nat} (bound : i ≤ (tokenize source).size) :
    (contextAt {} (lexemes source) i).last =
      ((tokenize source).prevSignificant? i).bind (tokenize source).kindAt? := by
  induction i with
  | zero => rfl
  | succ i ih =>
    have kind : (tokenize source).kindAt? i = some (tokenize source)[i].kind :=
      Tokens.kindAt?_eq_some_iff.2 ⟨bound, rfl⟩
    generalize (tokenize source)[i].kind = k at kind
    have lexeme := kind
    rw [kindAt?_lexemes, List.getElem?_map] at lexeme
    obtain ⟨l, found, rfl⟩ := Option.map_eq_some_iff.1 lexeme
    rw [contextAt, List.take_add_one, found, List.foldl_append, ← contextAt]
    show (if l.kind.isTrivia then (contextAt {} (lexemes source) i).last else some l.kind) = _
    split
    next silent => rw [ih (Nat.le_of_succ_le bound), Tokens.prevSignificant?_past kind silent]
    next loud => rw [Tokens.prevSignificant?_here kind (Bool.eq_false_iff.2 loud), Option.bind_some, kind]

/-- A word is told apart by whether what is in front of it forces a name. -/
theorem wordKind_congr {last last' : Option TokenKind} (forced : last.any forcesName = last'.any forcesName)
    (word : Bytes) : wordKind last word = wordKind last' word := by
  rw [wordKind, wordKind, forced]

theorem wordKind_of_plain {last : Option TokenKind} (plain : last.any forcesName = false) {name : String}
    (label : Name.IsLabel name) : wordKind last (encode name) = (reservedKind? name).getD .identifier := by
  have noSlash : ¬ (encode name).contains (byte '\\') = true := by
    rw [List.contains_iff_mem]
    exact label.notMem_encode (c := '\\') (by decide) (by decide) (by decide)
  rw [wordKind, plain, Bool.or_false, if_neg noSlash, decodeLossy_encode]

theorem of_reservedKind? {word : String} {kind : TokenKind} (h : reservedKind? word = some kind) :
    kind ≠ .identifier ∧ (forcesName kind = true → kind = .kwFunction) := by
  have table : ∀ entry ∈ reserved, entry.2 ≠ .identifier ∧ (forcesName entry.2 = true → entry.2 = .kwFunction) := by
    decide +kernel
  obtain ⟨before, after, split, -⟩ := List.lookup_eq_some_iff.1 h
  exact table (lower word, kind) (by rw [split]; simp)

/-- **Words.** A word is a plain name or reserved as the significant token in front of it says. -/
theorem wordKind_of_word {source bytes : Bytes} {i : Nat} {kind : TokenKind} (h : (tokenize source).kindAt? i = some kind)
    (span : (spans source)[i]? = some bytes) (word : isWord kind = true) :
    kind = wordKind (((tokenize source).prevSignificant? i).bind (tokenize source).kindAt?) bytes := by
  have bound := (Tokens.kindAt?_eq_some_iff.1 h).1
  rw [kindAt?_lexemes, List.getElem?_map] at h
  obtain ⟨l, found, rfl⟩ := Option.map_eq_some_iff.1 h
  rw [spans, List.getElem?_map, found] at span
  obtain rfl := Option.some.inj span
  rw [← last_contextAt source (Nat.le_of_lt bound)]
  exact wordKind_of_getElem? found word

end PhpRename.Lexer
