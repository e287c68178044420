import PhpRename.Proofs.Edit.Disjoint
import PhpRename.Proofs.Token.Position

/-!
# Where edits aim

An edit names its bytes by line and column. `Targets` says that the bytes at an offset of the
content are the ones it names; such edits lie in the content, replace those bytes and nothing else,
and lie apart when their offsets do.
-/

set_option autoImplicit false

namespace PhpRename.Edit

/-! ## Lines -/

theorem lines_cons_lineFeed (rest : Bytes) : lines (0x0a :: rest) = [0x0a] :: lines rest := rfl

theorem lines_cons {b : UInt8} (no : b ≠ 0x0a) (rest : Bytes) :
    lines (b :: rest) = (b :: (lines rest).headD []) :: (lines rest).tail := by
  have hb : (b == 0x0a) = false := by simpa using no
  rw [lines, hb]
  cases lines rest <;> rfl

theorem length_lines_lineFeed (xs : Bytes) : (lines (xs ++ [0x0a])).length = xs.count 0x0a + 1 := by
  induction xs with
  | nil => rfl
  | cons x xs ih =>
    rw [List.cons_append]
    by_cases feed : x = 0x0a
    · rw [feed, lines_cons_lineFeed, List.length_cons, ih, List.count_cons_self]
    · rw [lines_cons feed, List.length_cons, List.length_tail, ih, List.count_cons_of_ne feed]
      omega

theorem lines_lineFeed (xs rest : Bytes) : lines (xs ++ 0x0a :: rest) = lines (xs ++ [0x0a]) ++ lines rest := by
  induction xs with
  | nil => rfl
  | cons x xs ih =>
    rw [List.cons_append, List.cons_append]
    by_cases feed : x = 0x0a
    · rw [feed, lines_cons_lineFeed, lines_cons_lineFeed, ih, List.cons_append]
    · rw [lines_cons feed, lines_cons feed, ih]
      have some := length_lines_lineFeed xs
      cases h : lines (xs ++ [0x0a]) with
      | nil =>
        rw [h] at some
        cases some
      | cons line more => rfl

/-- Bytes without a line feed start the first line. -/
theorem head?_lines {xs : Bytes} (no : 0x0a ∉ xs) (nonempty : xs ≠ []) (rest : Bytes) :
    ∃ tail, (lines (xs ++ rest))[0]? = some (xs ++ tail) := by
  induction xs with
  | nil => exact absurd rfl nonempty
  | cons x xs ih =>
    obtain ⟨first, no⟩ := not_or.1 (mt List.mem_cons.2 no)
    rw [List.cons_append, lines_cons (Ne.symm first), List.getElem?_cons_zero]
    cases xs with
    | nil => exact ⟨(lines rest).headD [], rfl⟩
    | cons y ys =>
      obtain ⟨tail, h⟩ := ih no (List.cons_ne_nil y ys)
      refine ⟨tail, ?_⟩
      rw [List.headD_eq_head?_getD, List.head?_eq_getElem?, h]
      rfl

/-- The bytes since the last line feed, and what is before them. -/
theorem split_lastLine (xs : Bytes) : ∃ earlier last, xs = earlier ++ last ∧ 0x0a ∉ last ∧
    (earlier = [] ∨ ∃ init, earlier = init ++ [0x0a]) := by
  induction h : xs.reverse generalizing xs with
  | nil => exact ⟨[], [], by simpa using h, by simp, .inl rfl⟩
  | cons b rest ih =>
    obtain rfl : xs = rest.reverse ++ [b] := by rw [← List.reverse_reverse xs, h, List.reverse_cons]
    by_cases feed : b = 0x0a
    · exact ⟨rest.reverse ++ [b], [], by simp, by simp, .inr ⟨rest.reverse, by rw [feed]⟩⟩
    · obtain ⟨earlier, last, split, no, ends⟩ := ih rest.reverse (by simp)
      refine ⟨earlier, last ++ [b], by rw [split, List.append_assoc], ?_, ends⟩
      simp only [List.mem_append, List.mem_singleton, not_or]
      exact ⟨no, Ne.symm feed⟩

/-- A stretch without line feeds stands in the line and at the column of its offset. -/
theorem line_of_stretch (before after : Bytes) {bs : Bytes} (no : 0x0a ∉ bs) (nonempty : bs ≠ []) :
    ∃ start tail, Position.start.after before = ⟨before.count 0x0a + 1, start.length + 1⟩ ∧
      (lines (before ++ bs ++ after))[before.count 0x0a]? = some (start ++ bs ++ tail) := by
  obtain ⟨earlier, last, rfl, noLast, ends⟩ := split_lastLine before
  have noStretch : 0x0a ∉ last ++ bs := by simp [noLast, no]
  obtain ⟨tail, head⟩ := head?_lines noStretch (by simp [nonempty]) after
  refine ⟨last, tail, ?_, ?_⟩
  · rcases ends with rfl | ⟨init, rfl⟩
    · rw [List.nil_append, Position.after_of_notMem _ noLast, List.count_eq_zero.2 noLast]
      simp [Position.start, Nat.add_comm]
    · rw [List.append_assoc, List.singleton_append, Position.after_lineFeed, Position.after_of_notMem _ noLast]
      simp [Position.start, List.count_eq_zero.2 noLast, Nat.add_comm]
  · rw [List.count_append, List.count_eq_zero.2 noLast, Nat.add_zero]
    rcases ends with rfl | ⟨init, rfl⟩
    · exact head
    · rw [show init ++ [0x0a] ++ last ++ bs ++ after = init ++ 0x0a :: (last ++ bs ++ after) by simp,
        lines_lineFeed, List.count_append, List.count_singleton_self,
        List.getElem?_append_right (Nat.le_of_eq (length_lines_lineFeed init)), length_lines_lineFeed, Nat.sub_self]
      exact head

/-- Going to a byte of a line counts the lines before it and the bytes before it in its line. -/
theorem after_lines {content line : Bytes} {k j : Nat} (h : (lines content)[k]? = some line) (hj : j < line.length)
    (p : Position) : p.after (((lines content).take k).flatten ++ line.take j) =
      if k = 0 then ⟨p.line, p.column + j⟩ else ⟨p.line + k, j + 1⟩ := by
  induction content generalizing line k j p with
  | nil => simp [lines] at h
  | cons b rest ih =>
    by_cases feed : b = 0x0a
    · rw [feed, lines_cons_lineFeed] at h ⊢
      cases k with
      | zero =>
        obtain rfl : [0x0a] = line := by simpa using h
        obtain rfl : j = 0 := by simpa using hj
        rfl
      | succ k =>
        have step : p.step 0x0a = ⟨p.line + 1, 1⟩ := rfl
        rw [List.getElem?_cons_succ] at h
        rw [List.take_succ_cons, List.flatten_cons, List.append_assoc, List.singleton_append, Position.after_cons,
          ih h hj, step, if_neg (Nat.succ_ne_zero k)]
        split
        next first => rw [first, Nat.add_comm 1 j]
        next => rw [Nat.add_assoc, Nat.add_comm 1 k]
    · rw [lines_cons feed] at h ⊢
      have step : p.step b = ⟨p.line, p.column + 1⟩ := by simp [Position.step, feed]
      cases hl : lines rest with
      | nil =>
        obtain ⟨rfl, rfl⟩ : k = 0 ∧ [b] = line := by
          rw [hl] at h
          cases k with
          | zero => exact ⟨rfl, Option.some.inj h⟩
          | succ k => cases h
        obtain rfl : j = 0 := by simpa using hj
        rfl
      | cons first more =>
        rw [hl] at h ih
        cases k with
        | zero =>
          obtain rfl : b :: first = line := Option.some.inj h
          cases j with
          | zero => rfl
          | succ j =>
            have walk : p.after (b :: first.take j) = ⟨(p.step b).line, (p.step b).column + j⟩ :=
              ih (k := 0) rfl (Nat.lt_of_succ_lt_succ hj) (p.step b)
            have sum : p.column + 1 + j = p.column + (j + 1) := by omega
            rw [step] at walk
            rw [if_pos rfl, ← sum]
            exact walk
        | succ k =>
          have walk := ih (k := k + 1) h hj (p.step b)
          rw [if_neg (Nat.succ_ne_zero k), ← Position.after_cons, step] at walk
          rw [if_neg (Nat.succ_ne_zero k)]
          exact walk

theorem mem_terminator {line : Bytes} {b : UInt8} (h : b ∈ terminator line) : b = 0x0a ∨ b = 0x0d := by
  unfold terminator at h
  obtain ⟨-, len⟩ | ⟨c, rfl, -, len⟩ | ⟨c, rfl, len⟩ := contentLength_cases line
  · rw [len, List.drop_length] at h
    cases h
  · rw [len, List.drop_left] at h
    exact .inl (List.mem_singleton.1 h)
  · rw [len, List.drop_left] at h
    simpa [or_comm] using h

/-- The content of a line is at least as long as a firm beginning of the line. -/
theorem Firm.length_le {xs : Bytes} (firm : Firm xs) (tail : Bytes) : xs.length ≤ contentLength (xs ++ tail) := by
  obtain ⟨b, last, feed, ret⟩ := firm
  obtain ⟨init, rfl⟩ := List.getLast?_eq_some_iff.1 last
  apply Nat.le_of_not_lt
  intro short
  rw [List.length_append, List.length_singleton, List.append_assoc] at short
  have held : b ∈ terminator (init ++ ([b] ++ tail)) := by
    rw [terminator, List.drop_append_of_le_length (by omega)]
    simp
  rcases mem_terminator held with rfl | rfl
  · exact feed rfl
  · exact ret rfl

/-! ## Targets -/

/-- The bytes of a content that an edit replaces. -/
def addressed (e : Edit) (content : Bytes) : Bytes :=
  (((lines content).getD (e.line - 1) []).drop (e.column - 1)).take e.length

/-- An edit aims at bytes that stand at an offset of a content. -/
structure Targets (e : Edit) (content : Bytes) (n : Nat) (bs : Bytes) : Prop where
  key : e.key = Position.ofOffset content n
  length : e.length = bs.length
  stands : bs <+: content.drop n

section Targets

variable {e a b : Edit} {content bs : Bytes} {m n : Nat}

/-- The line of a targeted stretch: what is before it has the length that its column tells. -/
theorem Targets.line (h : e.Targets content n bs) (no : 0x0a ∉ bs) (nonempty : bs ≠ []) :
    1 ≤ e.line ∧ 1 ≤ e.column ∧
      ∃ start tail, e.column - 1 = start.length ∧ (lines content)[e.line - 1]? = some (start ++ bs ++ tail) := by
  obtain ⟨after, split⟩ := h.stands
  have whole : content.take n ++ bs ++ after = content := by
    rw [List.append_assoc, split, List.take_append_drop]
  obtain ⟨start, tail, place, line⟩ := line_of_stretch (content.take n) after no nonempty
  rw [whole] at line
  have key := h.key
  rw [← Position.start_after_take, place, Edit.key, Position.mk.injEq] at key
  refine ⟨by omega, by omega, start, tail, by omega, ?_⟩
  rw [key.1]
  exact line

theorem Targets.addressed (h : e.Targets content n bs) (no : 0x0a ∉ bs) (nonempty : bs ≠ []) :
    e.addressed content = bs := by
  obtain ⟨-, -, start, tail, column, line⟩ := h.line no nonempty
  rw [Edit.addressed, List.getD_eq_getElem?_getD, line, column, h.length]
  simp

/-- An edit that addresses bytes aims at them, at the offset of its line and column. -/
theorem targets_of_addressed (hl : 1 ≤ e.line) (hc : 1 ≤ e.column) (nonempty : bs ≠ []) (length : e.length = bs.length)
    (h : e.addressed content = bs) : ∃ n, e.Targets content n bs := by
  rw [Edit.addressed, List.getD_eq_getElem?_getD] at h
  cases here : (lines content)[e.line - 1]? with
  | none =>
    rw [here] at h
    simp only [Option.getD_none, List.drop_nil, List.take_nil] at h
    exact absurd h.symm nonempty
  | some line =>
    rw [here, Option.getD_some] at h
    have inside : e.column - 1 < line.length := by
      apply Nat.lt_of_not_le
      intro le
      rw [List.drop_eq_nil_of_le le, List.take_nil] at h
      exact nonempty h.symm
    have place := after_lines here inside .start
    have whole : ((lines content).take (e.line - 1)).flatten ++
        (line ++ ((lines content).drop (e.line - 1 + 1)).flatten) = content := by
      obtain ⟨bound, rfl⟩ := List.getElem?_eq_some_iff.1 here
      rw [← List.flatten_cons, ← List.drop_eq_getElem_cons bound, ← List.flatten_append, List.take_append_drop,
        flatten_lines]
    generalize ((lines content).take (e.line - 1)).flatten = before at place whole
    generalize ((lines content).drop (e.line - 1 + 1)).flatten = after at whole
    refine ⟨before.length + (e.column - 1), ?_, length, ?_⟩
    · rw [← Position.start_after_take, ← whole, List.take_length_add_append,
        List.take_append_of_le_length (Nat.le_of_lt inside), place]
      split
      · simp only [key, Position.start, Position.mk.injEq]
        omega
      · simp only [key, Position.start, Position.mk.injEq]
        omega
    · rw [← whole, List.drop_length_add_append, List.drop_append_of_le_length (Nat.le_of_lt inside), ← h]
      exact (List.take_prefix _ _).trans (List.prefix_append _ _)

theorem Targets.liesIn (h : e.Targets content n bs) (no : 0x0a ∉ bs) (firm : Firm bs) : e.LiesIn content := by
  have nonempty : bs ≠ [] := by
    obtain ⟨b, last, -⟩ := firm
    rintro rfl
    cases last
  obtain ⟨hl, hc, start, tail, column, line⟩ := h.line no nonempty
  refine ⟨hl, hc, _, line, ?_⟩
  have := (firm.append_left start).length_le tail
  rw [List.length_append] at this
  rw [column, h.length]
  exact this

theorem Targets.offset_le (h : e.Targets content n bs) (nonempty : bs ≠ []) : n ≤ content.length := by
  have len := h.stands.length_le
  have pos := List.length_pos_iff.2 nonempty
  rw [List.length_drop] at len
  omega

/-- Edits lie apart when one aims behind the bytes of the other. -/
theorem Targets.apart {xs ys : Bytes} (ha : a.Targets content m xs) (hb : b.Targets content n ys)
    (xs_some : xs ≠ []) (ys_some : ys ≠ []) (behind : m + xs.length ≤ n) : a.Apart b := by
  intro line
  have bound := hb.offset_le ys_some
  have pos := List.length_pos_iff.2 xs_some
  have keyA := ha.key
  have keyB := hb.key
  have lineA : (Position.ofOffset content m).line = a.line := by rw [← keyA]; rfl
  have lineB : (Position.ofOffset content n).line = b.line := by rw [← keyB]; rfl
  have columns := Position.column_ofOffset (by omega) bound (lineA.trans (line.trans lineB.symm))
  have columnA : (Position.ofOffset content m).column = a.column := by rw [← keyA]; rfl
  have columnB : (Position.ofOffset content n).column = b.column := by rw [← keyB]; rfl
  have len := ha.length
  refine ⟨by omega, .inl ?_⟩
  simp only [Before]
  omega

end Targets

end PhpRename.Edit
