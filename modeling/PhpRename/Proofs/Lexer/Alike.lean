import PhpRename.Proofs.Lexer.Spelling

/-!
# Byte strings that differ in names

Two byte strings are alike when they are the same but for stretches that are names in both. What comes
behind a lexeme plays a part in how the lexeme is measured, but which names stand there does not: each
length has its lemma. A number is the exception, as letters go on with it.
-/

set_option autoImplicit false

namespace PhpRename.Lexer

open Ascii

/-- The same bytes but for some stretches, which are names in both. -/
inductive Alike : Bytes → Bytes → Prop where
  | nil : Alike [] []
  | same (b : UInt8) {r r' : Bytes} (rest : Alike r r') : Alike (b :: r) (b :: r')
  | name {x y : UInt8} {xs ys r r' : Bytes} (starts : startsName x = true) (starts' : startsName y = true)
      (inside : ∀ b ∈ xs, inName b = true) (inside' : ∀ b ∈ ys, inName b = true) (rest : Alike r r') :
      Alike (x :: (xs ++ r)) (y :: (ys ++ r'))

namespace Alike

variable {r r' : Bytes}

theorem refl (r : Bytes) : Alike r r := by
  induction r with
  | nil => exact .nil
  | cons b r ih => exact .same b ih

theorem symm (h : Alike r r') : Alike r' r := by
  induction h with
  | nil => exact .nil
  | same b _ ih => exact .same b ih
  | name starts starts' inside inside' _ ih => exact .name starts' starts inside' inside ih

theorem append (h : Alike r r') (xs : Bytes) : Alike (xs ++ r) (xs ++ r') := by
  induction xs with
  | nil => exact h
  | cons x xs ih => exact .same x ih

theorem eq_nil (h : Alike [] r') : r' = [] := by
  cases h
  rfl

theorem ne_nil (h : Alike r r') (some : r ≠ []) : r' ≠ [] := by
  rintro rfl
  exact some h.symm.eq_nil

/-! ## What stands in front -/

/-- A test that answers the same for all bytes that start names tells nothing of the names. -/
theorem any_head? (h : Alike r r') {test : UInt8 → Bool} {answer : Bool}
    (same : ∀ b, startsName b = true → test b = answer) : r.head?.any test = r'.head?.any test := by
  cases h with
  | nil => rfl
  | same b rest => rfl
  | name starts starts' => exact (same _ starts).trans (same _ starts').symm

theorem nameFollows (h : Alike r r') : nameFollows r = nameFollows r' := h.any_head? fun _ starts => starts

theorem any_inName (h : Alike r r') : r.head?.any inName = r'.head?.any inName :=
  h.any_head? fun b starts => by rw [inName, starts, Bool.true_or]

theorem any_isDigit (h : Alike r r') : r.head?.any isDigit = r'.head?.any isDigit := by
  have noDigit : ∀ b : UInt8, startsName b = true → isDigit b = false := by decide +kernel
  exact h.any_head? noDigit

/-- A pattern without names is found in both, or in neither. -/
theorem isPrefixOf (h : Alike r r') {pattern : Bytes} (marks : ∀ b ∈ pattern, startsName b = false) :
    pattern.isPrefixOf r = pattern.isPrefixOf r' := by
  induction h generalizing pattern with
  | nil => rfl
  | same b rest ih =>
    cases pattern with
    | nil => rfl
    | cons p pattern =>
      rw [List.isPrefixOf_cons_cons, List.isPrefixOf_cons_cons, ih fun c mem => marks c (List.mem_cons_of_mem p mem)]
  | @name x y xs ys r r' starts starts' inside inside' rest ih =>
    cases pattern with
    | nil => rfl
    | cons p pattern =>
      have mark := marks p (List.mem_cons_self ..)
      have other : (p == x) = false := beq_false_of_ne (by rintro rfl; rw [starts] at mark; cases mark)
      have other' : (p == y) = false := beq_false_of_ne (by rintro rfl; rw [starts'] at mark; cases mark)
      rw [List.isPrefixOf_cons_cons, List.isPrefixOf_cons_cons, other, other', Bool.false_and, Bool.false_and]

theorem startsWith (h : Alike r r') {text : String} (marks : ∀ b ∈ Utf8.encode text, startsName b = false) :
    startsWith text r = startsWith text r' := h.isPrefixOf marks

/-- Bytes that start no names stand in both. -/
theorem exists_of_marks {marks bs : Bytes} (h : Alike (marks ++ r) bs) (noName : ∀ b ∈ marks, startsName b = false) :
    ∃ r', bs = marks ++ r' ∧ Alike r r' := by
  induction marks generalizing bs with
  | nil => exact ⟨bs, rfl, h⟩
  | cons b marks ih =>
    rw [List.cons_append] at h
    generalize whole : b :: (marks ++ r) = front at h
    cases h with
    | nil => cases whole
    | same c rest =>
      obtain ⟨rfl, rfl⟩ := List.cons.inj whole
      obtain ⟨r', rfl, alike⟩ := ih rest fun c mem => noName c (List.mem_cons_of_mem b mem)
      exact ⟨r', rfl, alike⟩
    | name starts =>
      obtain ⟨rfl, -⟩ := List.cons.inj whole
      rw [noName b (List.mem_cons_self ..)] at starts
      cases starts

/-! ## Runs of bytes -/

/-- A run of bytes that start no names is the same, and what is behind it is alike. -/
theorem run (h : Alike r r') {test : UInt8 → Bool} (marks : ∀ b, startsName b = true → test b = false) :
    r.takeWhile test = r'.takeWhile test ∧ Alike (r.dropWhile test) (r'.dropWhile test) := by
  induction h with
  | nil => exact ⟨rfl, .nil⟩
  | same b rest ih =>
    rw [List.takeWhile_cons, List.takeWhile_cons, List.dropWhile_cons, List.dropWhile_cons]
    cases test b with
    | true => exact ⟨congrArg (b :: ·) ih.1, ih.2⟩
    | false => exact ⟨rfl, .same b rest⟩
  | name starts starts' inside inside' rest ih =>
    rw [List.takeWhile_cons, List.takeWhile_cons, List.dropWhile_cons, List.dropWhile_cons, marks _ starts,
      marks _ starts']
    exact ⟨rfl, .name starts starts' inside inside' rest⟩

/-- A run of name bytes is empty in both or in neither, and what is behind it is alike. -/
theorem names (h : Alike r r') :
    (r.takeWhile inName).isEmpty = (r'.takeWhile inName).isEmpty ∧ Alike (r.dropWhile inName) (r'.dropWhile inName) := by
  induction h with
  | nil => exact ⟨rfl, .nil⟩
  | same b rest ih =>
    rw [List.takeWhile_cons, List.takeWhile_cons, List.dropWhile_cons, List.dropWhile_cons]
    cases inName b with
    | true => exact ⟨rfl, ih.2⟩
    | false => exact ⟨rfl, .same b rest⟩
  | @name x y xs ys r r' starts starts' inside inside' rest ih =>
    have first : inName x = true := by rw [inName, starts, Bool.true_or]
    have first' : inName y = true := by rw [inName, starts', Bool.true_or]
    rw [List.takeWhile_cons_of_pos first, List.takeWhile_cons_of_pos first', List.dropWhile_cons_of_pos first,
      List.dropWhile_cons_of_pos first', List.dropWhile_append_of_pos inside, List.dropWhile_append_of_pos inside']
    exact ⟨rfl, ih.2⟩

end Alike

/-! ## Lengths of lexemes -/

/-- A word that takes in the first bytes goes on behind them as far as what stands there does. -/
theorem wordLength_front {r r' : Bytes} (alike : Alike r r') (xs : Bytes) (le : xs.length ≤ wordLength (xs ++ r)) :
    wordLength (xs ++ r') = xs.length + wordLength r' := by
  induction xs with
  | nil => rw [List.nil_append, List.length_nil, Nat.zero_add]
  | cons x xs ih =>
    rw [List.cons_append, wordLength] at le ⊢
    rw [← (alike.append xs).nameFollows]
    rw [List.length_cons] at le ⊢
    split at le
    · rename_i more
      rw [if_pos more, ih (by omega)]
      omega
    · omega

/-- What a word stops in front of starts none. -/
theorem wordLength_behind {r : Bytes} (xs : Bytes) (h : wordLength (xs ++ r) = xs.length) : wordLength r = 0 := by
  have whole := wordLength_front (.refl r) xs (by omega)
  omega

section

variable {r r' : Bytes} (alike : Alike r r')
include alike

theorem wordLength_eq_zero (h : wordLength r = 0) : wordLength r' = 0 := by
  cases alike with
  | nil => rfl
  | same b rest =>
    rw [wordLength] at h ⊢
    rw [← rest.nameFollows]
    split at h
    · cases h
    · rename_i stop
      rw [if_neg stop]
  | @name x y xs ys r r' starts starts' inside inside' rest =>
    have first : inName x = true := by rw [inName, starts, Bool.true_or]
    rw [wordLength, first, Bool.true_or, if_pos rfl] at h
    cases h

theorem wordLength_alike (xs : Bytes) (h : wordLength (xs ++ r) = xs.length) : wordLength (xs ++ r') = xs.length := by
  rw [wordLength_front alike xs (by omega), wordLength_eq_zero alike (wordLength_behind xs h), Nat.add_zero]

/-- A number that goes on in neither keeps its length. -/
theorem numberLength_alike (stop : numberLength r = 0 → numberLength r' = 0) (xs : Bytes)
    (h : numberLength (xs ++ r) = xs.length) :
    numberLength (xs ++ r') = xs.length := by
  induction xs with
  | nil => exact stop h
  | cons x xs ih =>
    rw [List.cons_append, numberLength] at h ⊢
    rw [← (alike.append xs).any_isDigit]
    split at h
    · rename_i more
      rw [if_pos more, ih (Nat.succ.inj h), List.length_cons]
    · cases h

/-- Behind the same byte a number goes on in both or in neither. -/
theorem numberLength_eq_zero {b : UInt8} (h : numberLength (b :: r) = 0) : numberLength (b :: r') = 0 := by
  rw [numberLength] at h ⊢
  rw [← alike.any_isDigit]
  split at h
  · cases h
  · rename_i stop
    rw [if_neg stop]

theorem lineCommentLength_alike (xs : Bytes) (h : lineCommentLength (xs ++ r) = xs.length) :
    lineCommentLength (xs ++ r') = xs.length := by
  have tag : ∀ b ∈ Utf8.encode "?>", startsName b = false := by decide +kernel
  induction xs with
  | nil =>
    cases alike with
    | nil => rfl
    | same b rest =>
      rw [List.nil_append, lineCommentLength] at h ⊢
      rw [← (Alike.same b rest).startsWith tag]
      split at h
      · rename_i stop
        rw [if_pos stop, List.length_nil]
      · cases h
    | @name x y xs ys r r' starts starts' inside inside' rest =>
      have goes : ∀ b : UInt8, startsName b = true → (b == 0x0a) = false ∧ (0x3f == b) = false := by decide +kernel
      have noTag : startsWith "?>" (x :: (xs ++ r)) = false := by
        rw [startsWith, show Utf8.encode "?>" = [0x3f, 0x3e] by decide, List.isPrefixOf_cons_cons, (goes x starts).2,
          Bool.false_and]
      rw [List.nil_append, lineCommentLength, (goes x starts).1, noTag, Bool.or_self, if_neg Bool.false_ne_true] at h
      cases h
  | cons x xs ih =>
    rw [List.cons_append, lineCommentLength] at h ⊢
    have starts : startsWith "?>" (x :: (xs ++ r)) = startsWith "?>" (x :: (xs ++ r')) :=
      (alike.append (x :: xs)).startsWith tag
    rw [← starts]
    split at h
    · cases h
    · rename_i goes
      rw [if_neg goes, ih (Nat.succ.inj h), List.length_cons]

/-- What is found no farther than the first bytes is found there in both. -/
theorem offsetOf?_alike {pattern xs : Bytes} (some : pattern ≠ []) (marks : ∀ b ∈ pattern, startsName b = false) {n : Nat}
    (le : n ≤ xs.length) (h : offsetOf? pattern (xs ++ r) = .some n) : offsetOf? pattern (xs ++ r') = .some n := by
  induction xs generalizing n with
  | nil =>
    obtain rfl := Nat.le_zero.1 le
    obtain ⟨before, rest, found, empty⟩ := eq_of_offsetOf? h
    obtain rfl := List.length_eq_zero_iff.1 empty
    have here : pattern.isPrefixOf r' = true := by
      rw [← alike.isPrefixOf marks, List.isPrefixOf_iff_prefix]
      exact ⟨rest, found.symm⟩
    cases r' with
    | nil => exact absurd (List.prefix_nil.1 (List.isPrefixOf_iff_prefix.1 here)) some
    | cons b r' => rw [List.nil_append, offsetOf?, if_pos here]
  | cons x xs ih =>
    have same : pattern.isPrefixOf (x :: (xs ++ r)) = pattern.isPrefixOf (x :: (xs ++ r')) :=
      (alike.append (x :: xs)).isPrefixOf marks
    rw [List.cons_append, offsetOf?] at h ⊢
    rw [← same]
    split at h
    · rename_i here
      rw [if_pos here, h]
    · rename_i away
      obtain ⟨m, found, rfl⟩ := Option.map_eq_some_iff.1 h
      rw [if_neg away, ih (Nat.le_of_succ_le_succ le) found, Option.map_some]

theorem htmlLength_alike (xs : Bytes) (h : htmlLength (xs ++ r) = xs.length) : htmlLength (xs ++ r') = xs.length := by
  rw [htmlLength] at h ⊢
  cases found : offsetOf? (Utf8.encode "<?") (xs ++ r) with
  | none =>
    rw [found, Option.getD_none, List.length_append, Nat.add_eq_left, List.length_eq_zero_iff] at h
    subst h
    rw [alike.eq_nil, found, Option.getD_none, List.append_nil]
  | some n =>
    rw [found, Option.getD_some] at h
    rw [offsetOf?_alike alike (by decide) (by decide +kernel) (Nat.le_of_eq h) found, Option.getD_some, h]

theorem blockCommentLength_alike (xs : Bytes) (h : blockCommentLength (xs ++ r) = xs.length) :
    blockCommentLength (xs ++ r') = xs.length := by
  rw [blockCommentLength] at h ⊢
  cases found : offsetOf? (Utf8.encode "*/") ((xs ++ r).drop 2) with
  | none =>
    rw [found, Option.map_none, Option.getD_none, List.length_append, Nat.add_eq_left, List.length_eq_zero_iff] at h
    subst h
    rw [alike.eq_nil, found, Option.map_none, Option.getD_none, List.append_nil]
  | some n =>
    rw [found, Option.map_some, Option.getD_some] at h
    obtain _ | ⟨x, _ | ⟨y, xs⟩⟩ := xs
    · cases h
    · cases h
    · have le : n ≤ xs.length := by
        simp only [List.length_cons] at h
        omega
      have found' : offsetOf? (Utf8.encode "*/") ((x :: y :: xs ++ r').drop 2) = some n :=
        offsetOf?_alike alike (by decide) (by decide +kernel) le found
      rw [found', Option.map_some, Option.getD_some, h]

/-- A quoted string that ends before the source does is not measured any farther. -/
theorem quotedLength_alike {quote : UInt8} (xs : Bytes) (h : quotedLength quote (xs ++ r) = xs.length) :
    quotedLength quote (xs ++ r') = xs.length := by
  by_cases none : r = []
  · subst none
    rw [alike.eq_nil]
    exact h
  have some' := alike.ne_nil none
  generalize whole : xs ++ r = bs at h
  fun_induction quotedLength quote bs generalizing xs with
  | case1 => exact absurd (List.append_eq_nil_iff.1 whole).2 none
  | case2 b =>
    obtain ⟨x, rfl⟩ := List.length_eq_one_iff.1 h.symm
    exact absurd (List.cons.inj whole).2 none
  | case3 b c rest escape ih =>
    obtain _ | ⟨x, _ | ⟨y, xs⟩⟩ := xs
    · cases h
    · cases h
    · obtain ⟨rfl, behind⟩ := List.cons.inj whole
      have inner := ih xs (List.cons.inj behind).2 (by simpa using h)
      rw [List.cons_append, List.cons_append, quotedLength, if_pos escape, inner]
      rfl
  | case4 b c rest plain closing =>
    obtain ⟨x, rfl⟩ := List.length_eq_one_iff.1 h.symm
    obtain ⟨rfl, -⟩ := List.cons.inj whole
    obtain ⟨d, more, rfl⟩ := List.exists_cons_of_ne_nil some'
    rw [List.singleton_append, quotedLength, if_neg plain, if_pos closing]
    rfl
  | case5 b c rest plain inside ih =>
    cases xs with
    | nil => cases h
    | cons x xs =>
      obtain ⟨rfl, behind⟩ := List.cons.inj whole
      have inner := ih xs behind (by simpa using h)
      obtain ⟨d, more, split⟩ := List.exists_cons_of_ne_nil (List.append_ne_nil_of_right_ne_nil xs some')
      rw [List.cons_append, split, quotedLength, if_neg plain, if_neg inside, ← split, inner]
      rfl

end

end PhpRename.Lexer
