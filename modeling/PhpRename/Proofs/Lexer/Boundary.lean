import PhpRename.Lexer.Scan
import PhpRename.Proofs.Text.Utf8

/-!
# Where lexemes end

Every lexeme takes at least one byte, and no lexeme ends inside a character: it ends with the
source, before a byte that continues no character, or after a byte of ASCII. `Ends` is this fact of
one length; each kind of lexeme has its lemma, and `scan_ends` joins them.
-/

set_option autoImplicit false

namespace PhpRename.Lexer

open Ascii Utf8

/-- A lexeme of length `n` at the start of a byte string takes something and ends between
characters. -/
structure Ends (bs : Bytes) (n : Nat) : Prop where
  pos : 1 ≤ n
  meet : Meet (bs.take n) (bs.drop n)

/-! ## Ways to end -/

theorem Ends.all {bs : Bytes} (h : bs ≠ []) : Ends bs bs.length :=
  ⟨List.length_pos_iff.2 h, .atEnd List.drop_length⟩

theorem Ends.append_ascii (xs rest : Bytes) {b : UInt8} (ascii : b.toNat < 0x80) :
    Ends (xs ++ b :: rest) (xs.length + 1) := by
  have last : (xs ++ b :: rest).take (xs.length + 1) = xs ++ [b] := by
    rw [List.take_length_add_append, List.take_succ_cons, List.take_zero]
  exact ⟨Nat.le_add_left 1 _, .afterAscii last ascii⟩

theorem Ends.append_lead {xs rest : Bytes} {b : UInt8} (h : xs ≠ []) (lead : isContinuation b = false) :
    Ends (xs ++ b :: rest) xs.length :=
  ⟨List.length_pos_iff.2 h, .beforeLead List.drop_left lead⟩

/-- A lexeme ends before what cannot stand in a name. -/
theorem not_continuation_of_inName {b : UInt8} (h : inName b = false) : isContinuation b = false := by
  rw [Bool.eq_false_iff, Ne, isContinuation_iff]
  simp only [inName, startsName, Bool.or_eq_false_iff, decide_eq_false_iff_not, UInt8.le_iff_toNat_le] at h
  have hb : ¬ 0x80 ≤ b.toNat := h.1.2
  omega

theorem Ends.append_noName {xs ys : Bytes} (h : xs ≠ []) (next : ys.head?.any inName = false) :
    Ends (xs ++ ys) xs.length := by
  cases ys with
  | nil =>
    rw [List.append_nil]
    exact .all h
  | cons y ys => exact .append_lead h (not_continuation_of_inName (by simpa using next))

theorem startsWith_iff {text : String} {bs : Bytes} :
    startsWith text bs = true ↔ ∃ rest, bs = Utf8.encode text ++ rest := by
  rw [startsWith, List.isPrefixOf_iff_prefix]
  exact ⟨fun ⟨rest, h⟩ => ⟨rest, h.symm⟩, fun ⟨rest, h⟩ => ⟨rest, h.symm⟩⟩

/-- A fixed text of ASCII is a lexeme. -/
theorem Ends.startsWith {text : String} {bs init : Bytes} {b : UInt8} (h : startsWith text bs = true)
    (ht : Utf8.encode text = init ++ [b]) (ascii : b.toNat < 0x80) : Ends bs (Utf8.encode text).length := by
  obtain ⟨rest, rfl⟩ := startsWith_iff.1 h
  rw [ht, List.append_assoc, List.length_append]
  exact .append_ascii _ _ ascii

/-! ## Searching -/

/-- A pattern is found after the bytes that are counted. -/
theorem eq_of_offsetOf? {pattern bs : Bytes} {n : Nat} (h : offsetOf? pattern bs = some n) :
    ∃ before rest, bs = before ++ (pattern ++ rest) ∧ before.length = n := by
  induction bs generalizing n with
  | nil =>
    rw [offsetOf?] at h
    split at h
    next hp =>
      cases h
      exact ⟨[], [], by simpa using hp, rfl⟩
    · cases h
  | cons b bs ih =>
    rw [offsetOf?] at h
    split at h
    next hp =>
      cases h
      obtain ⟨rest, hr⟩ := List.isPrefixOf_iff_prefix.1 hp
      exact ⟨[], rest, hr.symm, rfl⟩
    · obtain ⟨m, hm, rfl⟩ := Option.map_eq_some_iff.1 h
      obtain ⟨before, rest, rfl, rfl⟩ := ih hm
      exact ⟨b :: before, rest, rfl, rfl⟩

theorem blockComment_ends {bs : Bytes} (h : startsWith "/*" bs = true) : Ends bs (blockCommentLength bs) := by
  have opening : Utf8.encode "/*" = [0x2f, 0x2a] := by decide
  have closing : Utf8.encode "*/" = [0x2a, 0x2f] := by decide
  obtain ⟨rest, rfl⟩ := startsWith_iff.1 h
  rw [opening, blockCommentLength, closing]
  cases hf : offsetOf? [0x2a, 0x2f] (([0x2f, 0x2a] ++ rest).drop 2) with
  | none => exact .all (by simp)
  | some n =>
    obtain ⟨before, after, hr, rfl⟩ := eq_of_offsetOf? hf
    have hr : rest = before ++ ([0x2a, 0x2f] ++ after) := hr
    have shape : [0x2f, 0x2a] ++ rest = (0x2f :: 0x2a :: (before ++ [0x2a])) ++ 0x2f :: after := by
      rw [hr]
      simp
    have len : before.length + 4 = (0x2f :: 0x2a :: (before ++ [0x2a]) : Bytes).length + 1 := by simp
    rw [Option.map_some, Option.getD_some, shape, len]
    exact .append_ascii _ _ (by decide)

theorem html_ends {bs : Bytes} (hne : bs ≠ []) (h : startsWith "<?" bs = false) : Ends bs (htmlLength bs) := by
  have mark : Utf8.encode "<?" = [0x3c, 0x3f] := by decide
  rw [htmlLength]
  cases hf : offsetOf? (Utf8.encode "<?") bs with
  | none => exact .all hne
  | some n =>
    obtain ⟨before, after, rfl, rfl⟩ := eq_of_offsetOf? hf
    have nonempty : before ≠ [] := by
      rintro rfl
      have : startsWith "<?" ([] ++ (Utf8.encode "<?" ++ after)) = true := startsWith_iff.2 ⟨after, rfl⟩
      rw [h] at this
      cases this
    rw [mark]
    exact .append_lead nonempty (by decide)

/-! ## Runs of bytes -/

theorem lineComment_split (bs : Bytes) : ∃ xs ys, bs = xs ++ ys ∧ xs.length = lineCommentLength bs ∧
    (ys = [] ∨ ∃ b rest, ys = b :: rest ∧ b.toNat < 0x80) := by
  induction bs with
  | nil => exact ⟨[], [], rfl, rfl, .inl rfl⟩
  | cons b rest ih =>
    rw [lineCommentLength]
    split
    next stop =>
      refine ⟨[], b :: rest, rfl, rfl, .inr ⟨b, rest, rfl, ?_⟩⟩
      rcases Bool.or_eq_true _ _ ▸ stop with hb | hb
      · rw [eq_of_beq hb]
        decide
      · have tag : Utf8.encode "?>" = [0x3f, 0x3e] := by decide
        obtain ⟨more, hm⟩ := startsWith_iff.1 hb
        rw [tag] at hm
        obtain ⟨rfl, -⟩ := List.cons.inj hm
        decide
    · obtain ⟨xs, ys, rfl, hn, hy⟩ := ih
      exact ⟨b :: xs, ys, rfl, by rw [List.length_cons, hn], hy⟩

theorem isContinuation_eq_false {b : UInt8} (ascii : b.toNat < 0x80) : isContinuation b = false := by
  rw [Bool.eq_false_iff, Ne, isContinuation_iff]
  omega

theorem lineComment_ends {bs : Bytes} (h : 1 ≤ lineCommentLength bs) : Ends bs (lineCommentLength bs) := by
  obtain ⟨xs, ys, hbs, hn, hy⟩ := lineComment_split bs
  have nonempty : xs ≠ [] := List.length_pos_iff.1 (by omega)
  rw [← hn, hbs]
  rcases hy with rfl | ⟨b, rest, rfl, ascii⟩
  · rw [List.append_nil]
    exact .all nonempty
  · exact .append_lead nonempty (isContinuation_eq_false ascii)

/-- A word is made of name bytes and backslashes, and no name byte follows it. -/
theorem word_split (bs : Bytes) : ∃ xs ys, bs = xs ++ ys ∧ xs.length = wordLength bs ∧
    ys.head?.any inName = false ∧ ∀ b ∈ xs, inName b = true ∨ b = byte '\\' := by
  induction bs with
  | nil => exact ⟨[], [], rfl, rfl, rfl, nofun⟩
  | cons b rest ih =>
    rw [wordLength]
    split
    next more =>
      obtain ⟨xs, ys, rfl, hn, hy, hx⟩ := ih
      refine ⟨b :: xs, ys, rfl, by rw [List.length_cons, hn], hy, ?_⟩
      intro c hc
      rcases List.mem_cons.1 hc with rfl | hc
      · simp only [Bool.or_eq_true, Bool.and_eq_true, beq_iff_eq] at more
        exact more.imp_right And.left
      · exact hx c hc
    next stop =>
      refine ⟨[], b :: rest, rfl, rfl, ?_, nofun⟩
      simp only [Bool.or_eq_true, not_or, Bool.not_eq_true] at stop
      exact stop.1

theorem word_ends {bs : Bytes} (h : 1 ≤ wordLength bs) : Ends bs (wordLength bs) := by
  obtain ⟨xs, ys, hbs, hn, hy, -⟩ := word_split bs
  rw [← hn, hbs]
  exact .append_noName (List.length_pos_iff.1 (by omega)) hy

theorem number_split (bs : Bytes) : ∃ xs ys, bs = xs ++ ys ∧ xs.length = numberLength bs ∧
    ∀ b ∈ xs, b.toNat < 0x80 := by
  induction bs with
  | nil => exact ⟨[], [], rfl, rfl, nofun⟩
  | cons b rest ih =>
    rw [numberLength]
    split
    next more =>
      obtain ⟨xs, ys, rfl, hn, hx⟩ := ih
      refine ⟨b :: xs, ys, rfl, by rw [List.length_cons, hn], ?_⟩
      intro c hc
      rcases List.mem_cons.1 hc with rfl | hc
      · simp only [isLetter, isDigit, Bool.or_eq_true, Bool.and_eq_true, decide_eq_true_eq, beq_iff_eq,
          UInt8.le_iff_toNat_le] at more
        rcases more with (((h | h) | h) | h) | h
        · exact Nat.lt_of_le_of_lt h.2 (by decide)
        · exact Nat.lt_of_le_of_lt h.2 (by decide)
        · exact Nat.lt_of_le_of_lt h.2 (by decide)
        · rw [h]
          decide
        · rw [h.1]
          decide
      · exact hx c hc
    next stop => exact ⟨[], b :: rest, rfl, rfl, nofun⟩

theorem number_ends {bs : Bytes} (h : 1 ≤ numberLength bs) : Ends bs (numberLength bs) := by
  obtain ⟨xs, ys, hbs, hn, hx⟩ := number_split bs
  have nonempty : xs ≠ [] := List.length_pos_iff.1 (by omega)
  obtain ⟨init, last, rfl⟩ : ∃ init last, xs = init ++ [last] :=
    ⟨_, _, (List.dropLast_concat_getLast nonempty).symm⟩
  rw [← hn, hbs, List.append_assoc, List.length_append]
  exact .append_ascii _ _ (hx last (by simp))

/-- A quoted string ends with its quote or with the source. -/
theorem quoted_split (quote : UInt8) (bs : Bytes) : ∃ xs ys, bs = xs ++ ys ∧
    xs.length = quotedLength quote bs ∧ (ys = [] ∨ ∃ init, xs = init ++ [quote]) := by
  fun_induction quotedLength quote bs with
  | case1 => exact ⟨[], [], rfl, rfl, .inl rfl⟩
  | case2 b => exact ⟨[b], [], rfl, rfl, .inl rfl⟩
  | case3 b c rest _ ih =>
    obtain ⟨xs, ys, rfl, hn, hy⟩ := ih
    refine ⟨b :: c :: xs, ys, rfl, by rw [List.length_cons, List.length_cons, hn], hy.imp_right ?_⟩
    rintro ⟨init, rfl⟩
    exact ⟨b :: c :: init, rfl⟩
  | case4 b c rest _ hq =>
    exact ⟨[b], c :: rest, rfl, rfl, .inr ⟨[], by rw [eq_of_beq hq, List.nil_append]⟩⟩
  | case5 b c rest _ _ ih =>
    obtain ⟨xs, ys, hr, hn, hy⟩ := ih
    refine ⟨b :: xs, ys, by rw [hr, List.cons_append], by rw [List.length_cons, hn], hy.imp_right ?_⟩
    rintro ⟨init, rfl⟩
    exact ⟨b :: init, rfl⟩

theorem quoted_ends {quote : UInt8} (ascii : quote.toNat < 0x80) (rest : Bytes) :
    Ends (quote :: rest) (1 + quotedLength quote rest) := by
  obtain ⟨xs, ys, rfl, hn, hy⟩ := quoted_split quote rest
  rw [← hn, Nat.add_comm]
  rcases hy with rfl | ⟨init, rfl⟩
  · rw [List.append_nil]
    exact Ends.all (List.cons_ne_nil quote xs)
  · have shape : quote :: (init ++ [quote] ++ ys) = (quote :: init) ++ quote :: ys := by simp
    rw [shape, List.length_append]
    exact .append_ascii (quote :: init) ys ascii

/-! ## Heredocs -/

theorem afterHeredoc_suffix (label body : Bytes) : afterHeredoc label body <:+ body := by
  fun_induction afterHeredoc label body with
  | case1 body line _ => exact (List.drop_suffix _ _).trans (List.dropWhile_suffix _)
  | case2 body line _ _ => exact List.nil_suffix
  | case3 body line _ b nextLine h ih =>
    refine ih.trans ((List.suffix_cons b nextLine).trans ?_)
    rw [← h]
    exact List.dropWhile_suffix _

/-- No name byte follows the label that closes a heredoc. -/
theorem afterHeredoc_head (label body : Bytes) : (afterHeredoc label body).head?.any inName = false := by
  fun_induction afterHeredoc label body with
  | case1 body line h =>
    simp only [Bool.and_eq_true, Bool.not_eq_true'] at h
    exact h.2
  | case2 body line _ _ => rfl
  | case3 body line _ b nextLine h ih => exact ih

theorem expect?_eq_some {test : UInt8 → Bool} {bs rest : Bytes} (h : expect? test bs = some rest) :
    ∃ b, bs = b :: rest ∧ test b = true := by
  cases bs with
  | nil => cases h
  | cons b more =>
    rw [expect?] at h
    split at h
    next ht =>
      cases h
      exact ⟨b, rfl, ht⟩
    · cases h

theorem heredocQuote_suffix (bs : Bytes) : (heredocQuote bs).2 <:+ bs := by
  cases bs with
  | nil => exact List.nil_suffix
  | cons b rest =>
    rw [heredocQuote]
    split
    · exact List.suffix_cons b rest
    · exact List.suffix_refl _

theorem heredoc_ends {bs : Bytes} {n : Nat} (h : heredocLength? bs = some n) : Ends bs n := by
  rw [heredocLength?] at h
  have quoted := heredocQuote_suffix ((bs.drop 3).dropWhile isBlank)
  generalize heredocQuote ((bs.drop 3).dropWhile isBlank) = q at h quoted
  obtain ⟨quote, labelled⟩ := q
  simp only at h quoted
  split at h
  · cases h
  -- The label's closing quote, when it has an opening one.
  obtain ⟨afterQuote, closed, h⟩ : ∃ afterQuote, afterQuote <:+ labelled.dropWhile inName ∧
      ((expect? (· == 0x0a) ((expect? (· == 0x0d) afterQuote).getD afterQuote)).bind fun body =>
        some (bs.length - (afterHeredoc (labelled.takeWhile inName) body).length)) = some n := by
    cases quote with
    | none => exact ⟨_, List.suffix_refl _, h⟩
    | some mark =>
      obtain ⟨afterQuote, hq, h⟩ := Option.bind_eq_some_iff.1 h
      obtain ⟨b, hb, -⟩ := expect?_eq_some hq
      refine ⟨afterQuote, ?_, h⟩
      rw [hb]
      exact List.suffix_cons b afterQuote
  obtain ⟨body, hb, h⟩ := Option.bind_eq_some_iff.1 h
  cases h
  have returned : (expect? (· == 0x0d) afterQuote).getD afterQuote <:+ afterQuote := by
    cases hr : expect? (· == 0x0d) afterQuote with
    | none => exact List.suffix_refl _
    | some rest =>
      obtain ⟨b, hb, -⟩ := expect?_eq_some hr
      rw [Option.getD_some, hb]
      exact List.suffix_cons b rest
  obtain ⟨feed, hfeed, -⟩ := expect?_eq_some hb
  have inside : feed :: body <:+ bs := by
    rw [← hfeed]
    exact returned.trans (closed.trans ((List.dropWhile_suffix _).trans
      (quoted.trans ((List.dropWhile_suffix _).trans (List.drop_suffix 3 bs)))))
  obtain ⟨before, hbs⟩ := inside
  obtain ⟨text, htext⟩ := afterHeredoc_suffix (labelled.takeWhile inName) body
  have next := afterHeredoc_head (labelled.takeWhile inName) body
  generalize afterHeredoc (labelled.takeWhile inName) body = after at htext next
  have shape : bs = (before ++ feed :: text) ++ after := by
    rw [← hbs, ← htext]
    simp
  have len : bs.length - after.length = (before ++ feed :: text).length := by
    rw [shape, List.length_append]
    omega
  rw [len, shape]
  exact .append_noName (by simp) next

/-! ## Operators and tags -/

theorem longOperators_ascii : ∀ op ∈ longOperators,
    (Utf8.encode op.1).length = op.1.length ∧ (Utf8.encode op.1).getLast?.any (· < 0x80) = true := by
  decide

theorem operator_ends {b : UInt8} {rest : Bytes} (ascii : b.toNat < 0x80) :
    Ends (b :: rest) (scanOperator b rest).2 := by
  rw [scanOperator]
  cases hf : longOperators.find? fun op => startsWith op.1 (b :: rest) with
  | none => exact .append_ascii [] rest ascii
  | some op =>
    obtain ⟨len, last⟩ := longOperators_ascii op (List.mem_of_find?_eq_some hf)
    obtain ⟨final, hl, hlt⟩ := (Option.any_eq_true _ _).1 last
    obtain ⟨init, hinit⟩ := List.getLast?_eq_some_iff.1 hl
    change Ends (b :: rest) op.1.length
    rw [← len]
    have here : startsWith op.1 (b :: rest) = true := by simpa using List.find?_some hf
    exact .startsWith here hinit (by simpa [UInt8.lt_iff_toNat_lt] using hlt)

/-- Folding case makes ASCII of ASCII only. -/
theorem ascii_of_toLower {c d : Char} (h : c.toLower = d) (ascii : d.toNat < 0x80) : c.toNat < 0x80 := by
  by_cases upper : c.val ≥ 'A'.val ∧ c.val ≤ 'Z'.val
  · have : c.val.toNat ≤ 0x5a := upper.2
    rw [Char.toNat_val] at this
    omega
  · have same : c.toLower = c := dif_neg upper
    rwa [← same, h]

/-- The long open tag, in any letter case, ends in a byte of ASCII. -/
theorem openTag_ends {bs : Bytes} (h : sameIgnoringCase (decodeLossy (bs.take 5)) "<?php" = true) :
    Ends bs 5 := by
  rw [sameIgnoringCase_iff] at h
  have folded : ((cut (bs.take 5)).map Piece.shown).map Char.toLower = ['<', '?', 'p', 'h'] ++ ['p'] := by
    rw [← toList_decodeLossy]
    simpa [lower] using congrArg String.toList h
  obtain ⟨before, last, hcut, -, hlast⟩ := List.map_eq_append_iff.1 (List.map_map ▸ folded)
  obtain ⟨p, rfl, hp⟩ := List.map_eq_singleton_iff.1 hlast
  have bytes : bs.take 5 = before.flatMap Piece.bytes ++ p.bytes := by
    rw [← flatMap_cut (bs.take 5), hcut]
    simp
  refine ⟨by decide, ?_⟩
  have mem : p ∈ cut (bs.take 5) := by simp [hcut]
  cases isPiece_of_mem_cut mem with
  | char c =>
    have ascii : c.toNat < 0x80 := ascii_of_toLower hp (by decide)
    rw [Piece.ofChar, encode_one ascii] at bytes
    exact .afterAscii bytes (by rw [toNat_ofNat (by omega)]; exact ascii)
  | stray _ =>
    have : replacement.toLower ≠ 'p' := by decide
    exact absurd hp this

/-! ## One lexeme -/

theorem html_scan_ends (b : UInt8) (rest : Bytes) : Ends (b :: rest) (scanHtml b rest).2 := by
  have shortTag : Utf8.encode "<?" = [0x3c] ++ [0x3f] := by decide
  have echoTag : Utf8.encode "<?=" = [0x3c, 0x3f] ++ [0x3d] := by decide
  rw [scanHtml]
  by_cases mark : startsWith "<?" (b :: rest) = true
  · rw [if_pos mark]
    split
    next long => exact openTag_ends long
    split
    next echo => exact .startsWith echo echoTag (by decide)
    · exact .startsWith mark shortTag (by decide)
  · rw [if_neg mark]
    exact html_ends (by simp) (Bool.eq_false_iff.2 mark)

theorem ascii_of_isSpace {b : UInt8} (h : isSpace b = true) : b.toNat < 0x80 := by
  simp only [isSpace, Bool.or_eq_true, beq_iff_eq] at h
  rcases h with (((rfl | rfl) | rfl) | rfl) | rfl <;> decide

theorem space_ends {b : UInt8} {rest : Bytes} (h : isSpace b = true) :
    Ends (b :: rest) ((b :: rest).takeWhile isSpace).length := by
  have shape := (List.takeWhile_append_dropWhile (p := isSpace) (l := b :: rest)).symm
  have nonempty : (b :: rest).takeWhile isSpace ≠ [] := by simp [h]
  obtain ⟨init, last, hx⟩ : ∃ init last, (b :: rest).takeWhile isSpace = init ++ [last] :=
    ⟨_, _, (List.dropLast_concat_getLast nonempty).symm⟩
  have space : isSpace last = true :=
    List.all_eq_true.1 (List.all_takeWhile (l := b :: rest)) last (by simp [hx])
  generalize (b :: rest).takeWhile isSpace = xs at *
  rw [shape, hx, List.append_assoc, List.length_append]
  exact .append_ascii _ _ (ascii_of_isSpace space)

theorem variable_ends {b : UInt8} {rest : Bytes} : Ends (b :: rest) (1 + (rest.takeWhile inName).length) := by
  have shape : b :: rest = (b :: rest.takeWhile inName) ++ rest.dropWhile inName := by
    rw [List.cons_append, List.takeWhile_append_dropWhile]
  have next : (rest.dropWhile inName).head?.any inName = false := by
    cases hd : rest.dropWhile inName with
    | nil => rfl
    | cons c more =>
      have := List.head?_dropWhile_not inName rest
      simpa [hd] using this
  have len : 1 + (rest.takeWhile inName).length = (b :: rest.takeWhile inName).length := by
    rw [List.length_cons, Nat.add_comm]
  rw [len]
  conv => lhs; rw [shape]
  exact .append_noName (by simp) next

theorem lineCommentLength_pos {b : UInt8} {rest : Bytes}
    (h : (b == byte '#' || startsWith "//" (b :: rest)) = true) : 1 ≤ lineCommentLength (b :: rest) := by
  have first : b = 0x23 ∨ b = 0x2f := by
    rcases Bool.or_eq_true _ _ ▸ h with hb | hb
    · exact .inl (eq_of_beq hb)
    · have slashes : Utf8.encode "//" = [0x2f, 0x2f] := by decide
      obtain ⟨more, hm⟩ := startsWith_iff.1 hb
      rw [slashes] at hm
      exact .inr (List.cons.inj hm).1
  have tag : Utf8.encode "?>" = [0x3f, 0x3e] := by decide
  have stays : ¬ (b == 0x0a || startsWith "?>" (b :: rest)) = true := by
    rw [startsWith, tag]
    rcases first with rfl | rfl <;> simp [List.isPrefixOf]
  rw [lineCommentLength, if_neg stays]
  exact Nat.le_add_left 1 _

theorem wordLength_pos {b : UInt8} {rest : Bytes}
    (h : (startsName b || (b == byte '\\' && nameFollows rest)) = true) : 1 ≤ wordLength (b :: rest) := by
  have goes : (inName b || (b == byte '\\' && nameFollows rest)) = true := by
    rw [Bool.or_eq_true] at h ⊢
    refine h.imp_left fun hb => ?_
    rw [inName, hb, Bool.true_or]
  rw [wordLength, if_pos goes]
  exact Nat.le_add_left 1 _

theorem numberLength_pos {b : UInt8} {rest : Bytes} (h : isDigit b = true) : 1 ≤ numberLength (b :: rest) := by
  rw [numberLength, if_pos (by simp [h])]
  exact Nat.le_add_left 1 _

theorem ascii_of_not_startsName {b : UInt8} (h : ¬ startsName b = true) : b.toNat < 0x80 := by
  simp only [startsName, Bool.or_eq_true, not_or, decide_eq_true_eq, UInt8.le_iff_toNat_le] at h
  exact Nat.not_le.1 h.2

theorem ascii_of_isQuote {b : UInt8} (h : isQuote b = true) : b.toNat < 0x80 := by
  simp only [isQuote, Bool.or_eq_true, beq_iff_eq] at h
  rcases h with (rfl | rfl) | rfl <;> decide

/-- What a lexeme of code can be, and what starts it. -/
inductive CodeLexeme (last : Option TokenKind) (b : UInt8) (rest : Bytes) : TokenKind × Nat → Prop where
  | closeTag (starts : startsWith "?>" (b :: rest) = true) : CodeLexeme last b rest (.closeTag, 2)
  | whitespace (starts : isSpace b = true) :
      CodeLexeme last b rest (.whitespace, ((b :: rest).takeWhile isSpace).length)
  | attributeList (starts : startsWith "#[" (b :: rest) = true) : CodeLexeme last b rest (.openBracket, 2)
  | lineComment (starts : (b == byte '#' || startsWith "//" (b :: rest)) = true) :
      CodeLexeme last b rest (.comment, lineCommentLength (b :: rest))
  | blockComment {kind : TokenKind} (starts : startsWith "/*" (b :: rest) = true) (other : kind ≠ .identifier) :
      CodeLexeme last b rest (kind, blockCommentLength (b :: rest))
  | dollarName (starts : (b == byte '$' && nameFollows rest) = true) :
      CodeLexeme last b rest (.variableName, 1 + (rest.takeWhile inName).length)
  | word (starts : (startsName b || (b == byte '\\' && nameFollows rest)) = true) :
      CodeLexeme last b rest (wordKind last ((b :: rest).take (wordLength (b :: rest))), wordLength (b :: rest))
  | number (starts : isDigit b = true) : CodeLexeme last b rest (.number, numberLength (b :: rest))
  | quoted (starts : isQuote b = true) : CodeLexeme last b rest (.stringLit, 1 + quotedLength b rest)
  | heredoc {n : Nat} (length : heredocLength? (b :: rest) = some n) : CodeLexeme last b rest (.heredoc, n)
  | operator (noName : startsName b = false) : CodeLexeme last b rest (scanOperator b rest)

/-- The branches are those of `scanCode`, in order. -/
theorem scanCode_lexeme (last : Option TokenKind) (b : UInt8) (rest : Bytes) :
    CodeLexeme last b rest (scanCode last b rest) := by
  rw [scanCode]
  by_cases tag : startsWith "?>" (b :: rest) = true
  · rw [if_pos tag]
    exact .closeTag tag
  rw [if_neg tag]
  by_cases space : isSpace b = true
  · rw [if_pos space]
    exact .whitespace space
  rw [if_neg space]
  by_cases opening : startsWith "#[" (b :: rest) = true
  · rw [if_pos opening]
    exact .attributeList opening
  rw [if_neg opening]
  by_cases comment : (b == byte '#' || startsWith "//" (b :: rest)) = true
  · rw [if_pos comment]
    exact .lineComment comment
  rw [if_neg comment]
  by_cases block : startsWith "/*" (b :: rest) = true
  · rw [if_pos block]
    refine .blockComment block ?_
    split <;> decide
  rw [if_neg block]
  by_cases dollar : (b == byte '$' && nameFollows rest) = true
  · rw [if_pos dollar]
    exact .dollarName dollar
  rw [if_neg dollar]
  by_cases name : (startsName b || (b == byte '\\' && nameFollows rest)) = true
  · rw [if_pos name]
    exact .word name
  rw [if_neg name]
  by_cases digit : isDigit b = true
  · rw [if_pos digit]
    exact .number digit
  rw [if_neg digit]
  by_cases quote : isQuote b = true
  · rw [if_pos quote]
    exact .quoted quote
  rw [if_neg quote]
  rw [Bool.or_eq_true, not_or] at name
  by_cases mark : startsWith "<<<" (b :: rest) = true
  · rw [if_pos mark]
    cases length : heredocLength? (b :: rest) with
    | some n => exact .heredoc length
    | none => exact .operator (Bool.eq_false_iff.2 name.1)
  · rw [if_neg mark]
    exact .operator (Bool.eq_false_iff.2 name.1)

theorem code_scan_ends (last : Option TokenKind) (b : UInt8) (rest : Bytes) :
    Ends (b :: rest) (scanCode last b rest).2 := by
  have closeTag : Utf8.encode "?>" = [0x3f] ++ [0x3e] := by decide
  have bracket : Utf8.encode "#[" = [0x23] ++ [0x5b] := by decide
  have lexical := scanCode_lexeme last b rest
  generalize scanCode last b rest = lexeme at lexical ⊢
  cases lexical with
  | closeTag tag => exact .startsWith tag closeTag (by decide)
  | whitespace space => exact space_ends space
  | attributeList opening => exact .startsWith opening bracket (by decide)
  | lineComment comment => exact lineComment_ends (lineCommentLength_pos comment)
  | blockComment comment => exact blockComment_ends comment
  | dollarName => exact variable_ends
  | word name => exact word_ends (wordLength_pos name)
  | number digit => exact number_ends (numberLength_pos digit)
  | quoted quote => exact quoted_ends (ascii_of_isQuote quote) rest
  | heredoc length => exact heredoc_ends length
  | operator noName => exact operator_ends (ascii_of_not_startsName (Bool.eq_false_iff.1 noName))

/-- **Lexemes end between characters**: the next lexeme takes something, and a well-formed source
may be split after it. -/
theorem scan_ends (c : Context) (b : UInt8) (rest : Bytes) : Ends (b :: rest) (scan c b rest).2 := by
  rw [scan]
  split
  · exact code_scan_ends c.last b rest
  · exact html_scan_ends b rest

/-! ## All lexemes -/

/-- The first lexeme ends between characters. -/
theorem scan_meet {c : Context} {b : UInt8} {rest : Bytes} {kind : TokenKind} {n : Nat}
    (h : scan c b rest = (kind, n)) : Meet (b :: rest.take (n - 1)) (rest.drop (n - 1)) := by
  have ends := scan_ends c b rest
  rw [h] at ends
  have len : n = n - 1 + 1 := by have := ends.pos; omega
  have meet := ends.meet
  rw [len, List.take_succ_cons, List.drop_succ_cons] at meet
  exact meet

/-- The lexemes of a well-formed byte string are well formed. -/
theorem valid_of_mem_lexemesFrom {c : Context} {bs : Bytes} (h : Valid bs) :
    ∀ l ∈ lexemesFrom c bs, Valid l.bytes := by
  fun_induction lexemesFrom c bs with
  | case1 =>
    intro l hl
    cases hl
  | case2 c b rest kind n hs ih =>
    have whole : Valid ((b :: rest.take (n - 1)) ++ rest.drop (n - 1)) := by
      rw [List.cons_append, List.take_append_drop]
      exact h
    obtain ⟨first, others⟩ := whole.split (scan_meet hs)
    intro l hl
    rcases List.mem_cons.1 hl with rfl | hl
    · exact first
    · exact ih others l hl

/-- Every lexeme ends between characters. -/
theorem meet_lexemesFrom {c : Context} {bs : Bytes} {i : Nat} {l : Lexeme} (h : (lexemesFrom c bs)[i]? = some l) :
    Meet l.bytes (((lexemesFrom c bs).drop (i + 1)).flatMap Lexeme.bytes) := by
  fun_induction lexemesFrom c bs generalizing i with
  | case1 => simp at h
  | case2 c b rest kind n hs ih =>
    cases i with
    | zero =>
      rw [List.getElem?_cons_zero, Option.some.injEq] at h
      rw [← h, Nat.zero_add, List.drop_one, List.tail_cons, flatMap_lexemesFrom]
      exact scan_meet hs
    | succ i => exact ih h

theorem valid_of_mem_lexemes {source : Bytes} (h : Valid source) : ∀ l ∈ lexemes source, Valid l.bytes :=
  valid_of_mem_lexemesFrom h

/-! ## Names -/

theorem scanOperator_ne_identifier (b : UInt8) (rest : Bytes) : (scanOperator b rest).1 ≠ .identifier := by
  have long : ∀ op ∈ longOperators, op.2 ≠ .identifier := by decide
  have short : ∀ op ∈ shortOperators, op.2 ≠ .identifier := by decide
  rw [scanOperator]
  split
  next op found => exact long op (List.mem_of_find?_eq_some found)
  · cases found : shortOperators.find? fun op => byte op.1 == b with
    | none => decide
    | some op => exact short op (List.mem_of_find?_eq_some found)

theorem scanHtml_ne_identifier (b : UInt8) (rest : Bytes) : (scanHtml b rest).1 ≠ .identifier := by
  rw [scanHtml]
  split
  · split
    · decide
    · split <;> decide
  · exact nofun

/-- Only a word is an identifier. -/
theorem scan_identifier {c : Context} {b : UInt8} {rest : Bytes} (h : (scan c b rest).1 = .identifier) :
    (scan c b rest).2 = wordLength (b :: rest) := by
  rw [scan] at h ⊢
  split at h
  next code =>
    rw [if_pos code]
    -- only a word can have this kind, the other lexemes have one of their own
    have lexical := scanCode_lexeme c.last b rest
    generalize scanCode c.last b rest = lexeme at lexical h ⊢
    cases lexical with
    | word name => rfl
    | blockComment comment other => exact absurd h other
    | operator noName => exact absurd h (scanOperator_ne_identifier b rest)
    | closeTag | whitespace | attributeList | lineComment | dollarName | number | quoted | heredoc => cases h
  · exact absurd h (scanHtml_ne_identifier b rest)

theorem inName_lineFeed : inName 0x0a = false := by decide

/-- Identifiers hold no line feed. -/
theorem lineFeed_notMem_of_identifier {c : Context} {bs : Bytes} :
    ∀ l ∈ lexemesFrom c bs, l.kind = .identifier → 0x0a ∉ l.bytes := by
  fun_induction lexemesFrom c bs with
  | case1 =>
    intro l hl
    cases hl
  | case2 c b rest kind n hs ih =>
    intro l hl hk
    rcases List.mem_cons.1 hl with rfl | hl
    · have word : (scan c b rest).2 = wordLength (b :: rest) := scan_identifier (by rw [hs]; exact hk)
      have pos := (scan_ends c b rest).pos
      rw [hs] at word pos
      obtain ⟨xs, ys, hbs, hlen, -, hx⟩ := word_split (b :: rest)
      have bytes : b :: rest.take (n - 1) = xs := by
        have : (b :: rest).take n = xs := by
          rw [show n = xs.length by simpa using word.trans hlen.symm, hbs, List.take_left]
        rwa [show n = n - 1 + 1 by simp only at pos; omega, List.take_succ_cons] at this
      intro mem
      rw [Lexeme.bytes, bytes] at mem
      rcases hx _ mem with hn | hb
      · rw [inName_lineFeed] at hn
        cases hn
      · exact absurd hb (by decide)
    · exact ih l hl hk

end PhpRename.Lexer
