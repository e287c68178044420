import PhpRename.Token.Basic

/-!
# Places and offsets

The place of a byte, read off the bytes before it, and how line and column move over a stretch of
bytes.
-/

set_option autoImplicit false

namespace PhpRename.Position

/-- The place of the byte at an offset: its line is one more than the line feeds before it, its
column one more than the bytes since the last of them. -/
def ofOffset (content : Bytes) (n : Nat) : Position :=
  ⟨(content.take n).count 0x0a + 1, ((content.take n).reverse.takeWhile (· != 0x0a)).length + 1⟩

theorem after_cons (p : Position) (b : UInt8) (bs : Bytes) : p.after (b :: bs) = (p.step b).after bs := rfl

theorem start_after_reverse (bs : Bytes) :
    start.after bs.reverse = ⟨bs.count 0x0a + 1, (bs.takeWhile (· != 0x0a)).length + 1⟩ := by
  induction bs with
  | nil => rfl
  | cons b bs ih =>
    rw [List.reverse_cons, after_append, ih]
    by_cases feed : b = 0x0a
    · simp [after, step, feed]
    · have hb : (b == 0x0a) = false := by simpa using feed
      simp [after, step, feed, hb]

/-- Going through the first bytes of a content leads to the place of the next one. -/
theorem start_after_take (content : Bytes) (n : Nat) : start.after (content.take n) = ofOffset content n := by
  have := start_after_reverse (content.take n).reverse
  rw [List.reverse_reverse, List.count_reverse] at this
  exact this

theorem line_after (p : Position) (bs : Bytes) : (p.after bs).line = p.line + bs.count 0x0a := by
  induction bs generalizing p with
  | nil => rfl
  | cons b bs ih =>
    rw [after_cons, ih]
    by_cases feed : b = 0x0a
    · simp only [step, feed, beq_self_eq_true, if_true, List.count_cons_self]
      omega
    · have hb : (b == 0x0a) = false := by simpa using feed
      simp [step, hb, feed]

theorem after_of_notMem (p : Position) {bs : Bytes} (h : 0x0a ∉ bs) : p.after bs = ⟨p.line, p.column + bs.length⟩ := by
  induction bs generalizing p with
  | nil => rfl
  | cons b bs ih =>
    obtain ⟨first, rest⟩ := not_or.1 (mt List.mem_cons.2 h)
    have hb : (b == 0x0a) = false := by simpa using Ne.symm first
    rw [after_cons, ih _ rest, step, hb]
    simp only [Bool.false_eq_true, if_false, List.length_cons, Position.mk.injEq, true_and]
    omega

/-- The last line feed of a stretch sets the column back to the first one. -/
theorem after_lineFeed (p : Position) (xs ys : Bytes) :
    p.after (xs ++ 0x0a :: ys) = (⟨p.line + xs.count 0x0a + 1, 1⟩ : Position).after ys := by
  rw [after_append, after_cons, step, line_after]
  rfl

/-- Two places of one line are as far apart as their offsets. -/
theorem column_ofOffset {content : Bytes} {m n : Nat} (le : m ≤ n) (bound : n ≤ content.length)
    (line : (ofOffset content m).line = (ofOffset content n).line) :
    (ofOffset content n).column = (ofOffset content m).column + (n - m) := by
  have split : content.take n = content.take m ++ (content.drop m).take (n - m) := by
    rw [← List.take_add, Nat.add_sub_cancel' le]
  have walk : ofOffset content n = (ofOffset content m).after ((content.drop m).take (n - m)) := by
    rw [← start_after_take, ← start_after_take, split, after_append]
  rw [walk, line_after] at line
  have none : 0x0a ∉ (content.drop m).take (n - m) := List.count_eq_zero.1 (by omega)
  have len : ((content.drop m).take (n - m)).length = n - m := by
    rw [List.length_take, List.length_drop]
    omega
  rw [walk, after_of_notMem _ none, len]

theorem ofOffset_succ {content rest : Bytes} {m : Nat} {b : UInt8} (h : content.drop m = b :: rest) :
    ofOffset content (m + 1) = (ofOffset content m).step b := by
  have next : content.take (m + 1) = content.take m ++ [b] := by
    rw [List.take_add, h, List.take_succ_cons, List.take_zero]
  rw [← start_after_take, ← start_after_take, next, after_append]
  rfl

/-- The places of a content tell its offsets apart. -/
theorem ofOffset_inj {content : Bytes} {m n : Nat} (hm : m ≤ content.length) (hn : n ≤ content.length)
    (h : ofOffset content m = ofOffset content n) : m = n := by
  obtain le | le := Nat.le_total m n
  · have column := column_ofOffset le hn (congrArg line h)
    rw [h] at column
    omega
  · have column := column_ofOffset le hm (congrArg line h.symm)
    rw [h] at column
    omega

end PhpRename.Position
