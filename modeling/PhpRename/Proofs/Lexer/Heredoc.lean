import PhpRename.Proofs.Lexer.Alike

/-!
# Heredocs

When a heredoc opens (`OpensHeredoc`), and where it ends. Which names stand behind a heredoc plays no part in
where it ends, and none in whether one opens where the bytes ahead do not open one.
-/

set_option autoImplicit false

namespace PhpRename.Lexer

open Ascii

/-! ## The opening line -/

/-- Three marks, a label that may be in quotes, and the end of the line open a heredoc; blanks may stand
before the label, and the body is what follows. -/
structure OpensHeredoc (bs label body : Bytes) : Prop where
  pieces : ∃ blanks quote ending, bs = Utf8.encode "<<<" ++ (blanks ++ (quote ++ (label ++ (quote ++ (ending ++ body))))) ∧
    (∀ b ∈ blanks, isBlank b = true) ∧ (quote = [] ∨ quote = [byte '\''] ∨ quote = [byte '"']) ∧
    (ending = [0x0a] ∨ ending = [0x0d, 0x0a])
  named : label ≠ []
  inside : ∀ b ∈ label, inName b = true

theorem blank_noName : ∀ b : UInt8, isBlank b = true → startsName b = false := by
  decide +kernel

theorem name_noMark : ∀ b : UInt8, inName b = true → isBlank b = false ∧ b ≠ byte '\'' ∧ b ≠ byte '"' := by
  decide +kernel

theorem takeWhile_label {label : Bytes} (inside : ∀ b ∈ label, inName b = true) {rest : Bytes}
    (stop : rest.head?.any inName = false) :
    (label ++ rest).takeWhile inName = label ∧ (label ++ rest).dropWhile inName = rest := by
  have none := takeWhile_eq_nil stop
  have whole := List.takeWhile_append_dropWhile (p := inName) (l := rest)
  rw [none, List.nil_append] at whole
  rw [List.takeWhile_append_of_pos inside, List.dropWhile_append_of_pos inside, none, whole, List.append_nil]
  exact ⟨rfl, rfl⟩

theorem expect?_eq_some_iff {b : UInt8} {bs rest : Bytes} : expect? (· == b) bs = some rest ↔ bs = b :: rest := by
  constructor
  · intro h
    obtain ⟨c, rfl, same⟩ := expect?_eq_some h
    rw [eq_of_beq same]
  · rintro rfl
    rw [expect?, if_pos (beq_self_eq_true b)]

/-- A line ends in a line feed, with or without a carriage return before it. -/
theorem lineEnd_iff {bs body : Bytes} :
    expect? (· == 0x0a) ((expect? (· == 0x0d) bs).getD bs) = some body ↔
      ∃ ending, (ending = [0x0a] ∨ ending = [0x0d, 0x0a]) ∧ bs = ending ++ body := by
  cases returned : expect? (· == 0x0d) bs with
  | none =>
    rw [Option.getD_none, expect?_eq_some_iff]
    constructor
    · rintro rfl
      exact ⟨[0x0a], .inl rfl, rfl⟩
    · rintro ⟨_, rfl | rfl, rfl⟩
      · rfl
      · cases returned
  | some rest =>
    obtain rfl := expect?_eq_some_iff.1 returned
    rw [Option.getD_some, expect?_eq_some_iff]
    constructor
    · rintro rfl
      exact ⟨[0x0d, 0x0a], .inr rfl, rfl⟩
    · rintro ⟨_, rfl | rfl, same⟩
      · cases same
      · exact (List.cons.inj same).2

/-- The quote that opens the label is taken off, and the label with what follows is left. -/
theorem heredocQuote_label (quote labelled : Bytes) (named : labelled.head?.any inName = true) :
    (quote = [] → heredocQuote (quote ++ labelled) = (none, labelled)) ∧
      ∀ q, q = byte '\'' ∨ q = byte '"' → quote = [q] → heredocQuote (quote ++ labelled) = (some q, labelled) := by
  constructor
  · rintro rfl
    cases labelled with
    | nil => rfl
    | cons b rest =>
      obtain ⟨-, noSingle, noDouble⟩ := name_noMark b named
      rw [List.nil_append, heredocQuote, beq_false_of_ne noSingle, beq_false_of_ne noDouble, Bool.or_self,
        if_neg Bool.false_ne_true]
  · rintro q (rfl | rfl) rfl <;> rfl

/-- What opens a heredoc is measured as one. -/
theorem OpensHeredoc.length {bs label body : Bytes} (h : OpensHeredoc bs label body) :
    heredocLength? bs = some (bs.length - (afterHeredoc label body).length) := by
  obtain ⟨blanks, quote, ending, pieces, blank, quoted, ended⟩ := h.pieces
  obtain ⟨l, ls, rfl⟩ := List.exists_cons_of_ne_nil h.named
  have name : inName l = true := h.inside l (List.mem_cons_self ..)
  obtain ⟨noBlank, -⟩ := name_noMark l name
  have behind : (bs.drop 3).dropWhile isBlank = quote ++ (l :: ls ++ (quote ++ (ending ++ body))) := by
    have first : (quote ++ (l :: ls ++ (quote ++ (ending ++ body)))).dropWhile isBlank =
        quote ++ (l :: ls ++ (quote ++ (ending ++ body))) := by
      obtain rfl | rfl | rfl := quoted
      · exact List.dropWhile_cons_of_neg (by rw [noBlank]; exact Bool.false_ne_true)
      · rfl
      · rfl
    have three : (Utf8.encode "<<<").length = 3 := by decide
    rw [pieces, List.drop_left' three, List.dropWhile_append_of_pos blank, first]
  have line : expect? (· == 0x0a) ((expect? (· == 0x0d) (ending ++ body)).getD (ending ++ body)) = some body :=
    lineEnd_iff.2 ⟨ending, ended, rfl⟩
  have stop : (quote ++ (ending ++ body)).head?.any inName = false := by
    obtain rfl | rfl | rfl := quoted
    · obtain rfl | rfl := ended <;> rfl
    · rfl
    · rfl
  obtain ⟨taken, dropped⟩ := takeWhile_label h.inside stop
  obtain ⟨bare, marked⟩ := heredocQuote_label quote (l :: ls ++ (quote ++ (ending ++ body))) name
  have closing : ∀ q, quote = [q] → expect? (· == q) (quote ++ (ending ++ body)) = some (ending ++ body) := by
    rintro q rfl
    exact expect?_eq_some_iff.2 rfl
  rw [heredocLength?, behind]
  obtain empty | one | two := quoted
  · rw [bare empty]
    simp only [taken, dropped]
    rw [empty, List.nil_append]
    simp [line]
  · rw [marked _ (.inl rfl) one]
    simp only [taken, dropped]
    simp [closing _ one, line]
  · rw [marked _ (.inr rfl) two]
    simp only [taken, dropped]
    simp [closing _ two, line]

/-- What stands in front of a label: no quote, or one. -/
theorem heredocQuote_split (bs : Bytes) : ∃ quote labelled, bs = quote ++ labelled ∧
    (quote = [] ∧ heredocQuote bs = (none, labelled) ∨
      ∃ q, (q = byte '\'' ∨ q = byte '"') ∧ quote = [q] ∧ heredocQuote bs = (some q, labelled)) := by
  cases bs with
  | nil => exact ⟨[], [], rfl, .inl ⟨rfl, rfl⟩⟩
  | cons b rest =>
    rw [heredocQuote]
    split
    · rename_i quoted
      rw [Bool.or_eq_true, beq_iff_eq, beq_iff_eq] at quoted
      exact ⟨[b], rest, rfl, .inr ⟨b, quoted, rfl, rfl⟩⟩
    · exact ⟨[], b :: rest, rfl, .inl ⟨rfl, rfl⟩⟩

/-- What is measured as a heredoc is opened as one. -/
theorem opensHeredoc_of_length {bs : Bytes} {n : Nat} (mark : startsWith "<<<" bs = true)
    (h : heredocLength? bs = some n) :
    ∃ label body, OpensHeredoc bs label body ∧ n = bs.length - (afterHeredoc label body).length := by
  obtain ⟨marked, rfl⟩ := startsWith_iff.1 mark
  have three : (Utf8.encode "<<<").length = 3 := by decide
  obtain ⟨quote, labelled, front, quoted⟩ := heredocQuote_split (marked.dropWhile isBlank)
  have blank : ∀ b ∈ marked.takeWhile isBlank, isBlank b = true := fun b mem => List.mem_takeWhile_imp mem
  have blanks := List.takeWhile_append_dropWhile (p := isBlank) (l := marked)
  have names := List.takeWhile_append_dropWhile (p := inName) (l := labelled)
  rw [heredocLength?, List.drop_left' three] at h
  -- The label's closing quote, when it has an opening one, and the end of the line.
  have line : ∃ afterQuote body, labelled.takeWhile inName ≠ [] ∧ labelled.dropWhile inName = quote ++ afterQuote ∧
      expect? (· == 0x0a) ((expect? (· == 0x0d) afterQuote).getD afterQuote) = some body ∧
        n = (Utf8.encode "<<<" ++ marked).length - (afterHeredoc (labelled.takeWhile inName) body).length := by
    obtain ⟨rfl, found⟩ | ⟨q, -, rfl, found⟩ := quoted
    · rw [found] at h
      simp only at h
      split at h
      · cases h
      · rename_i named
        obtain ⟨afterQuote, same, h⟩ := Option.bind_eq_some_iff.1 h
        obtain ⟨body, ends, size⟩ := Option.bind_eq_some_iff.1 h
        exact ⟨afterQuote, body, fun empty => named (List.isEmpty_iff.2 empty), Option.some.inj same, ends,
          (Option.some.inj size).symm⟩
    · rw [found] at h
      simp only at h
      split at h
      · cases h
      · rename_i named
        obtain ⟨afterQuote, closing, h⟩ := Option.bind_eq_some_iff.1 h
        obtain ⟨body, ends, size⟩ := Option.bind_eq_some_iff.1 h
        exact ⟨afterQuote, body, fun empty => named (List.isEmpty_iff.2 empty), expect?_eq_some_iff.1 closing, ends,
          (Option.some.inj size).symm⟩
  obtain ⟨afterQuote, body, named, closing, ends, rfl⟩ := line
  obtain ⟨ending, ended, rfl⟩ := lineEnd_iff.1 ends
  refine ⟨labelled.takeWhile inName, body, ⟨⟨marked.takeWhile isBlank, quote, ending, ?_, blank, ?_, ended⟩, named,
    fun b mem => List.mem_takeWhile_imp mem⟩, rfl⟩
  · rw [← closing, names, ← front, blanks]
  · obtain ⟨rfl, -⟩ | ⟨q, rfl | rfl, rfl, -⟩ := quoted
    · exact .inl rfl
    · exact .inr (.inl rfl)
    · exact .inr (.inr rfl)

/-- The bytes before the body open a heredoc whatever follows. -/
theorem OpensHeredoc.exists_front {bs label body : Bytes} (h : OpensHeredoc bs label body) :
    ∃ front, bs = front ++ body ∧ ∀ other, OpensHeredoc (front ++ other) label other := by
  obtain ⟨blanks, quote, ending, rfl, blank, quoted, ended⟩ := h.pieces
  refine ⟨Utf8.encode "<<<" ++ (blanks ++ (quote ++ (label ++ (quote ++ ending)))), by simp only [List.append_assoc], ?_⟩
  intro other
  exact ⟨⟨blanks, quote, ending, by simp only [List.append_assoc], blank, quoted, ended⟩, h.named, h.inside⟩

/-- Where a heredoc opens, one opens with other names, too. -/
theorem OpensHeredoc.alike {bs bs' label body : Bytes} (h : OpensHeredoc bs label body) (alike : Alike bs bs') :
    ∃ label' body', OpensHeredoc bs' label' body' := by
  have marks : ∀ b ∈ Utf8.encode "<<<", startsName b = false := by decide +kernel
  obtain ⟨blanks, quote, ending, rfl, blank, quoted, ended⟩ := h.pieces
  have quoteMarks : ∀ b ∈ quote, startsName b = false := by
    obtain rfl | rfl | rfl := quoted <;> decide +kernel
  have endingMarks : ∀ b ∈ ending, startsName b = false := by
    obtain rfl | rfl := ended <;> decide +kernel
  have stop : (quote ++ (ending ++ body)).head?.any inName = false := by
    obtain rfl | rfl | rfl := quoted
    · obtain rfl | rfl := ended <;> rfl
    · rfl
    · rfl
  obtain ⟨marked, rfl, markedAlike⟩ := alike.exists_of_marks marks
  obtain ⟨behind, rfl, behindAlike⟩ := markedAlike.exists_of_marks fun b mem => blank_noName b (blank b mem)
  obtain ⟨labelled, rfl, labelledAlike⟩ := behindAlike.exists_of_marks quoteMarks
  obtain ⟨taken, dropped⟩ := takeWhile_label h.inside stop
  obtain ⟨named, closingAlike⟩ := labelledAlike.names
  rw [taken] at named
  rw [dropped] at closingAlike
  obtain ⟨afterQuote, closing, endingAlike⟩ := closingAlike.exists_of_marks quoteMarks
  obtain ⟨body', rfl, -⟩ := endingAlike.exists_of_marks endingMarks
  refine ⟨labelled.takeWhile inName, body', ⟨blanks, quote, ending, ?_, blank, quoted, ended⟩, ?_, ?_⟩
  · rw [← closing, List.takeWhile_append_dropWhile]
  · intro empty
    rw [empty, List.isEmpty_nil, List.isEmpty_iff] at named
    exact h.named named
  · exact fun b mem => List.mem_takeWhile_imp mem

theorem heredocLength?_none_alike {bs bs' : Bytes} (alike : Alike bs bs') (mark : startsWith "<<<" bs = true)
    (none : heredocLength? bs = none) : heredocLength? bs' = .none := by
  have marks : ∀ b ∈ Utf8.encode "<<<", startsName b = false := by decide +kernel
  refine Option.eq_none_iff_forall_ne_some.2 fun n length => ?_
  obtain ⟨label, body, opens, -⟩ := opensHeredoc_of_length ((alike.startsWith marks).symm.trans mark) length
  obtain ⟨label', body', opens'⟩ := opens.alike alike.symm
  rw [opens'.length] at none
  cases none

/-! ## The closing label -/

/-- The line in front closes a heredoc: the label stands there after blanks, and no name goes on with it. -/
def Closes (label body : Bytes) : Prop :=
  ∃ blanks rest, body = blanks ++ (label ++ rest) ∧ (∀ b ∈ blanks, isBlank b = true) ∧ rest.head?.any inName = false

/-- Whether a line closes a heredoc is told by the line. -/
theorem Closes.line {label line next : Bytes} (inside : ∀ b ∈ label, inName b = true) (other : Bytes)
    (h : Closes label (line ++ 0x0a :: next)) :
    Closes label (line ++ 0x0a :: other) := by
  obtain ⟨blanks, rest, split, blank, stop⟩ := h
  have noFeed : 0x0a ∉ blanks ++ label := by
    intro mem
    obtain mem | mem := List.mem_append.1 mem
    · exact absurd (blank _ mem) (by decide)
    · exact absurd (inside _ mem) (by decide)
  rw [← List.append_assoc] at split
  -- The label ends in the line, since it holds no line feed.
  obtain ⟨more, rfl, rfl⟩ : ∃ more, line = blanks ++ label ++ more ∧ rest = more ++ 0x0a :: next := by
    obtain ⟨more, front, behind⟩ | ⟨more, rfl, rfl⟩ := List.append_eq_append_iff.1 split
    · cases more with
      | nil => exact ⟨[], by rw [front, List.append_nil, List.append_nil], behind.symm⟩
      | cons c more =>
        obtain ⟨rfl, -⟩ := List.cons.inj behind
        rw [front] at noFeed
        exact absurd (List.mem_append_right line (List.mem_cons_self ..)) noFeed
    · exact ⟨more, rfl, rfl⟩
  refine ⟨blanks, more ++ 0x0a :: other, by simp only [List.append_assoc], blank, ?_⟩
  cases more with
  | nil => rfl
  | cons c more => exact stop

section

variable {label : Bytes} (named : label ≠ []) (inside : ∀ b ∈ label, inName b = true)
include named inside

theorem dropWhile_blanks {blanks : Bytes} (blank : ∀ b ∈ blanks, isBlank b = true) (rest : Bytes) :
    (blanks ++ (label ++ rest)).dropWhile isBlank = label ++ rest := by
  obtain ⟨l, ls, rfl⟩ := List.exists_cons_of_ne_nil named
  have noBlank : isBlank l = false := (name_noMark l (inside l (List.mem_cons_self ..))).1
  rw [List.dropWhile_append_of_pos blank]
  exact List.dropWhile_cons_of_neg (by rw [noBlank]; exact Bool.false_ne_true)

theorem closes_iff {body : Bytes} : Closes label body ↔ (label.isPrefixOf (body.dropWhile isBlank) &&
    !((body.dropWhile isBlank).drop label.length).head?.any inName) = true := by
  rw [Bool.and_eq_true, Bool.not_eq_true', List.isPrefixOf_iff_prefix]
  constructor
  · rintro ⟨blanks, rest, rfl, blank, stop⟩
    rw [dropWhile_blanks named inside blank, List.drop_left]
    exact ⟨List.prefix_append label rest, stop⟩
  · rintro ⟨⟨rest, line⟩, stop⟩
    rw [← line, List.drop_left] at stop
    refine ⟨body.takeWhile isBlank, rest, ?_, fun b mem => List.mem_takeWhile_imp mem, stop⟩
    rw [line, List.takeWhile_append_dropWhile]

theorem afterHeredoc_closes {blanks rest : Bytes} (blank : ∀ b ∈ blanks, isBlank b = true)
    (stop : rest.head?.any inName = false) : afterHeredoc label (blanks ++ (label ++ rest)) = rest := by
  have closed := (closes_iff named inside).1 ⟨blanks, rest, rfl, blank, stop⟩
  rw [afterHeredoc, if_pos closed, dropWhile_blanks named inside blank, List.drop_left]

/-- Behind a line that does not close it a heredoc goes on with the next line. -/
theorem afterHeredoc_line {line next : Bytes} (noFeed : ∀ b ∈ line, (b != 0x0a) = true)
    (opened : ¬ Closes label (line ++ 0x0a :: next)) :
    afterHeredoc label (line ++ 0x0a :: next) = afterHeredoc label next := by
  have behind : (line ++ 0x0a :: next).dropWhile (· != 0x0a) = 0x0a :: next := by
    rw [List.dropWhile_append_of_pos noFeed]
    rfl
  rw [closes_iff named inside] at opened
  rw [afterHeredoc, if_neg opened]
  split
  · rename_i last
    rw [behind] at last
    cases last
  · rename_i more
    rw [behind] at more
    rw [← (List.cons.inj more).2]

/-- What follows a heredoc is not looked into. -/
theorem afterHeredoc_alike {ys r r' : Bytes} (alike : Alike r r') (h : afterHeredoc label (ys ++ r) = r) :
    afterHeredoc label (ys ++ r') = r' := by
  generalize whole : ys ++ r = body at h
  fun_induction afterHeredoc label body generalizing ys with
  | case1 body line =>
    rename_i closed
    obtain ⟨blanks, rest, rfl, blank, stop⟩ := (closes_iff named inside).2 closed
    have behind : line.drop label.length = rest := by
      rw [show line = label ++ rest from dropWhile_blanks named inside blank rest, List.drop_left]
    obtain rfl : rest = r := behind.symm.trans h
    rw [← List.append_assoc] at whole
    rw [List.append_cancel_right whole, List.append_assoc]
    exact afterHeredoc_closes named inside blank (alike.any_inName.symm.trans stop)
  | case2 body line opened =>
    rename_i last
    obtain rfl := h
    obtain rfl := alike.eq_nil
    rw [whole, afterHeredoc, if_neg opened]
    split
    · rfl
    · rename_i more
      rw [last] at more
      cases more
  | case3 body line opened b next behind =>
    rename_i ih
    have feed : b = 0x0a := by
      have head := List.head?_dropWhile_not (· != 0x0a) body
      simpa [behind] using head
    subst feed
    obtain ⟨ys', split⟩ : ∃ ys', ys' ++ r = next := h ▸ afterHeredoc_suffix label next
    have parts := List.takeWhile_append_dropWhile (p := (· != 0x0a)) (l := body)
    have noFeed : ∀ b ∈ body.takeWhile (· != 0x0a), (b != 0x0a) = true :=
      fun b mem => List.mem_takeWhile_imp (p := (· != 0x0a)) mem
    generalize body.takeWhile (· != 0x0a) = front at parts noFeed
    rw [behind, ← split, ← whole] at parts
    obtain rfl : ys = front ++ 0x0a :: ys' := by
      have same : ys ++ r = front ++ 0x0a :: ys' ++ r := by rw [← parts, List.append_assoc, List.cons_append]
      exact List.append_cancel_right same
    have opened' : ¬ Closes label (front ++ 0x0a :: (ys' ++ r')) := by
      intro closed
      apply opened
      apply (closes_iff named inside).1
      rw [← whole, List.append_assoc, List.cons_append]
      exact closed.line inside _
    rw [List.append_assoc, List.cons_append, afterHeredoc_line named inside noFeed opened']
    exact ih split h

end

theorem heredocLength?_alike {r r' : Bytes} (alike : Alike r r') (xs : Bytes)
    (mark : startsWith "<<<" (xs ++ r) = true)
    (h : heredocLength? (xs ++ r) = some xs.length) : heredocLength? (xs ++ r') = some xs.length := by
  obtain ⟨label, body, opens, size⟩ := opensHeredoc_of_length mark h
  obtain ⟨front, split, others⟩ := opens.exists_front
  obtain ⟨text, rest⟩ := afterHeredoc_suffix label body
  -- What follows the heredoc is `r`, so that the heredoc is the opening line and the text of the body.
  have whole : (front ++ text) ++ afterHeredoc label body = xs ++ r := by rw [split, List.append_assoc, rest]
  have length : (front ++ text).length = xs.length := by
    have total := congrArg List.length whole
    simp only [List.length_append] at total size ⊢
    omega
  obtain ⟨rfl, behind⟩ := List.append_inj whole length
  rw [behind] at rest
  have ends : afterHeredoc label (text ++ r') = r' :=
    afterHeredoc_alike opens.named opens.inside alike (by rw [rest, behind])
  rw [List.append_assoc, (others (text ++ r')).length, ends, ← List.append_assoc, List.length_append, Nat.add_sub_cancel]

end PhpRename.Lexer
