import Mathlib
import PhpRename.Edit.Lines

/-!
# Edits as a simultaneous substitution

Edits are replayed one after another on a line that changes under them. Here they are read at once,
against the original line: at every byte, what is put in before it and whether it is replaced.
`Passed` is the invariant of the replay: what has been written stands in the place of the first
bytes of the original line, and the rest of the line is still the original one. Every application
that succeeds is the substitution.
-/

set_option autoImplicit false

namespace PhpRename.Edit

/-! ## Substitution -/

/-- Whether an edit replaces the byte at index `i` of its line. -/
def covers (e : Edit) (i : Nat) : Bool := e.column ≤ i + 1 && i + 1 < e.column + e.length

/-- What the edits of a line put in before the byte at index `i`. -/
def inserted (edits : List Edit) (i : Nat) : Bytes :=
  (edits.filter (·.column == i + 1)).flatMap bytes

/-- The bytes of a line from index `i` on, with all its edits carried out at once. -/
def substituteFrom (edits : List Edit) (i : Nat) : Bytes → Bytes
  | [] => inserted edits i
  | b :: rest =>
    inserted edits i ++ ((if edits.any (·.covers i) then [] else [b]) ++ substituteFrom edits (i + 1) rest)

/-- The bytes of a line before its terminator. -/
def body (line : Bytes) : Bytes := line.take (contentLength line)

/-- The line feed of a line, or its carriage return and line feed. -/
def terminator (line : Bytes) : Bytes := line.drop (contentLength line)

/-- A line with all its edits carried out at once; its terminator is kept. -/
def substituteLine (edits : List Edit) (line : Bytes) : Bytes :=
  substituteFrom edits 0 (body line) ++ terminator line

/-- A content with all edits carried out at once, each on its own line. -/
def substitute (edits : List Edit) (content : Bytes) : Bytes :=
  ((lines content).mapIdx fun i line => substituteLine (edits.filter (·.line == i + 1)) line).flatten

/-- An edit replaces bytes of a line of the content, before the line's terminator. -/
def LiesIn (e : Edit) (content : Bytes) : Prop :=
  1 ≤ e.line ∧ 1 ≤ e.column ∧
    ∃ line, (lines content)[e.line - 1]? = some line ∧ e.column - 1 + e.length ≤ contentLength line

/-- One edit of a line ends before another one starts. -/
def Before (a b : Edit) : Prop := a.column + a.length ≤ b.column

/-- Two edits are on different lines, or start at different columns and one ends before the other
starts. -/
def Apart (a b : Edit) : Prop :=
  a.line = b.line → a.column ≠ b.column ∧ (a.Before b ∨ b.Before a)

/-- A content is what edits make of another one: the edits lie in it, apart from each other, and
are carried out at once. -/
structure Substituted (edits : List Edit) (content out : Bytes) : Prop where
  inside : ∀ e ∈ edits, e.LiesIn content
  apart : edits.Pairwise Apart
  result : out = substitute edits content

theorem inserted_cons (e : Edit) (edits : List Edit) (i : Nat) :
    inserted (e :: edits) i = (if e.column = i + 1 then e.bytes else []) ++ inserted edits i := by
  by_cases h : e.column = i + 1 <;> simp [inserted, h]

/-- Nothing is put in before a byte at which no edit starts. -/
theorem inserted_eq_nil {edits : List Edit} {i : Nat} (h : ∀ e ∈ edits, i + 1 < e.column) :
    inserted edits i = [] := by
  have : edits.filter (·.column == i + 1) = [] := by
    refine List.filter_eq_nil_iff.2 fun e he => ?_
    have := h e he
    simp only [beq_iff_eq]
    omega
  simp [inserted, this]

theorem any_covers_eq_false {edits : List Edit} {i : Nat} (h : ∀ e ∈ edits, i + 1 < e.column) :
    edits.any (·.covers i) = false := by
  refine List.any_eq_false.2 fun e he => ?_
  have := h e he
  simp only [covers, Bool.and_eq_true, decide_eq_true_eq]
  omega

/-- Bytes before every edit are kept. -/
theorem substituteFrom_append {edits : List Edit} {i : Nat} {xs : Bytes} (ys : Bytes)
    (h : ∀ e ∈ edits, i + xs.length < e.column) :
    substituteFrom edits i (xs ++ ys) = xs ++ substituteFrom edits (i + xs.length) ys := by
  induction xs generalizing i with
  | nil => rfl
  | cons x xs ih =>
    have here : ∀ e ∈ edits, i + 1 < e.column := by
      intro e he
      have := h e he
      simp only [List.length_cons] at this
      omega
    have there : ∀ e ∈ edits, i + 1 + xs.length < e.column := by
      intro e he
      have := h e he
      simp only [List.length_cons] at this
      omega
    rw [List.cons_append, substituteFrom, inserted_eq_nil here, any_covers_eq_false here, ih there,
      List.length_cons, show i + (xs.length + 1) = i + 1 + xs.length by omega]
    rfl

@[simp] theorem substituteFrom_nil (i : Nat) (line : Bytes) : substituteFrom [] i line = line := by
  induction line generalizing i with
  | nil => rfl
  | cons b rest ih => simp [substituteFrom, inserted, ih]

/-- An edit has no effect on what follows it. -/
theorem substituteFrom_past {e : Edit} {edits : List Edit} {i : Nat} (line : Bytes)
    (hc : e.column ≤ i) (hl : e.column + e.length ≤ i + 1) :
    substituteFrom (e :: edits) i line = substituteFrom edits i line := by
  have hne : e.column ≠ i + 1 := by omega
  have hcov : e.covers i = false := by simp only [covers, Bool.and_eq_false_iff, decide_eq_false_iff_not]; omega
  induction line generalizing i with
  | nil => simp [substituteFrom, inserted_cons, hne]
  | cons b rest ih =>
    have hne' : e.column ≠ i + 1 + 1 := by omega
    have hcov' : e.covers (i + 1) = false := by
      simp only [covers, Bool.and_eq_false_iff, decide_eq_false_iff_not]; omega
    have step := ih (i := i + 1) (by omega) (by omega) hne' hcov'
    simp [substituteFrom, inserted_cons, hne, hcov, step]

/-- Behind its start, an edit takes away what it covers. -/
theorem substituteFrom_covered {e : Edit} {edits : List Edit} {i : Nat} {xs : Bytes} (ys : Bytes)
    (hc : e.column ≤ i) (hend : i + xs.length + 1 = e.column + e.length)
    (later : ∀ a ∈ edits, e.Before a) :
    substituteFrom (e :: edits) i (xs ++ ys) = substituteFrom edits (i + xs.length) ys := by
  induction xs generalizing i with
  | nil =>
    simp only [List.length_nil, Nat.add_zero] at hend
    exact substituteFrom_past ys hc (by omega)
  | cons x xs ih =>
    simp only [List.length_cons] at hend
    have here : ∀ a ∈ edits, i + 1 < a.column := by
      intro a ha
      have := later a ha
      simp only [Before] at this
      omega
    have hne : e.column ≠ i + 1 := by omega
    have hcov : e.covers i = true := by
      simp only [covers, Bool.and_eq_true, decide_eq_true_eq]; omega
    have step := ih (i := i + 1) (by omega) (by omega)
    rw [List.length_cons, show i + (xs.length + 1) = i + 1 + xs.length by omega, ← step,
      List.cons_append, substituteFrom, inserted_cons, inserted_eq_nil here]
    simp [hne, hcov]

/-- At its start, an edit puts its text in the place of what it covers. -/
theorem substituteFrom_start {e : Edit} {edits : List Edit} {xs : Bytes} (ys : Bytes)
    (hc : 1 ≤ e.column) (hlen : xs.length = e.length) (later : ∀ a ∈ edits, e.Before a) :
    substituteFrom (e :: edits) (e.column - 1) (xs ++ ys) =
      e.bytes ++ substituteFrom edits (e.column - 1 + e.length) ys := by
  have hcol : e.column = e.column - 1 + 1 := by omega
  cases xs with
  | nil =>
    have hzero : e.length = 0 := hlen.symm
    have hcov : e.covers (e.column - 1) = false := by
      simp only [covers, Bool.and_eq_false_iff, decide_eq_false_iff_not]; omega
    cases ys with
    | nil => simp [substituteFrom, inserted_cons, ← hcol, hzero]
    | cons y ys =>
      have past : substituteFrom (e :: edits) (e.column - 1 + 1) ys =
          substituteFrom edits (e.column - 1 + 1) ys := substituteFrom_past ys (by omega) (by omega)
      rw [List.nil_append, hzero, Nat.add_zero, substituteFrom, past, substituteFrom, inserted_cons,
        if_pos hcol]
      simp [hcov]
  | cons x xs =>
    simp only [List.length_cons] at hlen
    have here : ∀ a ∈ edits, e.column - 1 + 1 < a.column := by
      intro a ha
      have := later a ha
      simp only [Before] at this
      omega
    have hcov : e.covers (e.column - 1) = true := by
      simp only [covers, Bool.and_eq_true, decide_eq_true_eq]; omega
    have rest : substituteFrom (e :: edits) (e.column - 1 + 1) (xs ++ ys) =
        substituteFrom edits (e.column - 1 + 1 + xs.length) ys :=
      substituteFrom_covered ys (by omega) (by omega) later
    rw [List.cons_append, substituteFrom, rest, inserted_cons, if_pos hcol, inserted_eq_nil here,
      show e.column - 1 + 1 + xs.length = e.column - 1 + e.length by omega]
    simp [hcov]

/-! ## Line terminators -/

/-- How a line can end, and what its content is in each case. -/
theorem contentLength_cases (line : Bytes) :
    (line.getLast? ≠ some 0x0a ∧ contentLength line = line.length) ∨
    (∃ c, line = c ++ [0x0a] ∧ c.getLast? ≠ some 0x0d ∧ contentLength line = c.length) ∨
    (∃ c, line = c ++ [0x0d, 0x0a] ∧ contentLength line = c.length) := by
  obtain ⟨r, rfl⟩ : ∃ r : Bytes, line = r.reverse := ⟨line.reverse, by simp⟩
  unfold contentLength
  rw [List.reverse_reverse]
  match r with
  | [] => exact .inl ⟨by simp, rfl⟩
  | [last] =>
    by_cases h : last = 0x0a
    · exact .inr (.inl ⟨[], by simp [h]⟩)
    · exact .inl (by simp [h])
  | last :: previous :: rest =>
    by_cases h : last = 0x0a
    · by_cases hp : previous = 0x0d
      · exact .inr (.inr ⟨rest.reverse, by simp [h, hp]⟩)
      · exact .inr (.inl ⟨rest.reverse ++ [previous], by simp [h, hp]⟩)
    · exact .inl (by simp [h])

theorem contentLength_le (line : Bytes) : contentLength line ≤ line.length := by
  obtain ⟨-, h⟩ | ⟨c, rfl, -, h⟩ | ⟨c, rfl, h⟩ := contentLength_cases line <;> simp [h]

theorem contentLength_append_lineFeed_le (xs : Bytes) : contentLength (xs ++ [0x0a]) ≤ xs.length := by
  obtain ⟨h, -⟩ | ⟨c, hc, -, h⟩ | ⟨c, hc, h⟩ := contentLength_cases (xs ++ [0x0a])
  · simp at h
  · exact Nat.le_of_eq (by rw [h, (List.append_inj' hc rfl).1])
  · have hx : xs ++ [0x0a] = (c ++ [0x0d]) ++ [0x0a] := by simpa using hc
    rw [h, (List.append_inj' hx rfl).1]
    simp

theorem contentLength_append_return (xs : Bytes) : contentLength (xs ++ [0x0d, 0x0a]) = xs.length := by
  obtain ⟨h, -⟩ | ⟨c, hc, hr, h⟩ | ⟨c, hc, h⟩ := contentLength_cases (xs ++ [0x0d, 0x0a])
  · simp at h
  · have hx : (xs ++ [0x0d]) ++ [0x0a] = c ++ [0x0a] := by simpa using hc
    simp [← (List.append_inj' hx rfl).1] at hr
  · rw [h, (List.append_inj' hc rfl).1]

theorem body_append_terminator (line : Bytes) : body line ++ terminator line = line :=
  List.take_append_drop _ _

theorem length_body (line : Bytes) : (body line).length = contentLength line := by
  rw [body, List.length_take, Nat.min_eq_left (contentLength_le line)]

/-- Whatever stands before the terminator of a line, the content is not longer than that: it is
shorter when its last bytes come to read as a part of the terminator. -/
theorem contentLength_append_terminator_le (line xs : Bytes) :
    contentLength (xs ++ terminator line) ≤ xs.length := by
  unfold terminator
  obtain ⟨-, h⟩ | ⟨c, rfl, -, h⟩ | ⟨c, rfl, h⟩ := contentLength_cases line
  · rw [h, List.drop_length, List.append_nil]
    exact contentLength_le xs
  · rw [h, List.drop_left]
    exact contentLength_append_lineFeed_le xs
  · rw [h, List.drop_left]
    exact Nat.le_of_eq (contentLength_append_return xs)

/-! ## The replay of a line -/

/-- What the replay asks of its next edit, and how it goes on. -/
theorem replay_cons_ok_iff {offset written : Int} {e : Edit} {edits : List Edit} {now out : Bytes} :
    replay offset written (e :: edits) now = .ok out ↔
      written < e.column + offset ∧
      ((e.column : Int) + offset - 1).toNat + e.length ≤ contentLength now ∧
      replay (offset + e.delta) ((e.column : Int) + offset + e.bytes.length - 1) edits
        (now.take ((e.column : Int) + offset - 1).toNat ++ e.bytes ++
          now.drop (((e.column : Int) + offset - 1).toNat + e.length)) = .ok out := by
  simp only [replay]
  by_cases free : (e.column : Int) + offset ≤ written
  · rw [if_pos free]
    exact ⟨nofun, fun h => absurd free (Int.not_le.2 h.1)⟩
  rw [if_neg free]
  by_cases fits : contentLength now < ((e.column : Int) + offset - 1).toNat + e.length
  · rw [if_pos fits]
    exact ⟨nofun, fun h => absurd fits (Nat.not_lt.2 h.2.1)⟩
  rw [if_neg fits]
  exact ⟨fun h => ⟨Int.not_le.1 free, Nat.not_lt.1 fits, h⟩, fun h => h.2.2⟩

/-- A replay has passed the first `p` bytes of `line` and written `done` in their place. -/
structure Passed (line : Bytes) (p : Nat) (done : Bytes) (offset written : Int) (now : Bytes) : Prop where
  shape : now = done ++ (body line).drop p ++ terminator line
  offset : offset = (done.length : Int) - p
  written : written = done.length
  bound : p ≤ contentLength line

theorem Passed.start (line : Bytes) : Passed line 0 [] 0 0 line :=
  ⟨(body_append_terminator line).symm, rfl, rfl, Nat.zero_le _⟩

section Passed

variable {line done now : Bytes} {p : Nat} {offset written : Int} {e : Edit}

/-- The content of the changing line is not longer than what has been written and what is left of
the original content. -/
theorem Passed.contentLength_le (h : Passed line p done offset written now) :
    contentLength now + p ≤ done.length + contentLength line := by
  have le := contentLength_append_terminator_le line (done ++ (body line).drop p)
  rw [← h.shape, List.length_append, List.length_drop, length_body] at le
  have := h.bound
  omega

/-- One accepted edit: it starts behind what has been passed, it ends in the original content, and
the replay passes its end. -/
theorem Passed.step (h : Passed line p done offset written now) (free : written < e.column + offset)
    (fits : ((e.column : Int) + offset - 1).toNat + e.length ≤ contentLength now) :
    p < e.column ∧ e.column - 1 + e.length ≤ contentLength line ∧
      Passed line (e.column - 1 + e.length)
        (done ++ (((body line).drop p).take (e.column - 1 - p) ++ e.bytes)) (offset + e.delta)
        ((e.column : Int) + offset + e.bytes.length - 1)
        (now.take ((e.column : Int) + offset - 1).toNat ++ e.bytes ++
          now.drop (((e.column : Int) + offset - 1).toNat + e.length)) := by
  have ho := h.offset
  have hw := h.written
  have hc := h.contentLength_le
  have hl := length_body line
  have behind : p < e.column := by omega
  have start : ((e.column : Int) + offset - 1).toNat = done.length + (e.column - 1 - p) := by omega
  rw [start] at fits ⊢
  have inside : e.column - 1 + e.length ≤ contentLength line := by omega
  have left : ((body line).drop p).length = contentLength line - p := by
    rw [List.length_drop, hl]
  have kept : (((body line).drop p).take (e.column - 1 - p)).length = e.column - 1 - p := by
    rw [List.length_take, left]
    omega
  refine ⟨behind, inside, ?_, ?_, ?_, inside⟩
  · rw [h.shape, List.append_assoc done, List.take_length_add_append, Nat.add_assoc,
      List.drop_length_add_append, List.take_append_of_le_length (by omega),
      List.drop_append_of_le_length (by omega), List.drop_drop,
      show p + (e.column - 1 - p + e.length) = e.column - 1 + e.length by omega]
    simp only [List.append_assoc]
  · simp only [List.length_append, kept, delta]
    omega
  · simp only [List.length_append, kept]
    omega

/-- The substitution takes the same step. -/
theorem substituteFrom_step {edits : List Edit} (hp : p < e.column)
    (fits : e.column - 1 + e.length ≤ contentLength line) (later : ∀ a ∈ edits, e.Before a) :
    substituteFrom (e :: edits) p ((body line).drop p) =
      ((body line).drop p).take (e.column - 1 - p) ++
        (e.bytes ++ substituteFrom edits (e.column - 1 + e.length)
          ((body line).drop (e.column - 1 + e.length))) := by
  have hl := length_body line
  have kept : (((body line).drop p).take (e.column - 1 - p)).length = e.column - 1 - p := by
    rw [List.length_take, List.length_drop]
    omega
  have taken : (((body line).drop (e.column - 1)).take e.length).length = e.length := by
    rw [List.length_take, List.length_drop]
    omega
  have ahead : ∀ a ∈ e :: edits, p + (((body line).drop p).take (e.column - 1 - p)).length < a.column := by
    intro a ha
    rw [kept]
    rcases List.mem_cons.1 ha with rfl | ha
    · omega
    · have := later a ha
      simp only [Before] at this
      omega
  have cut : (body line).drop p = ((body line).drop p).take (e.column - 1 - p) ++
      (((body line).drop (e.column - 1)).take e.length ++ (body line).drop (e.column - 1 + e.length)) := by
    have there : (body line).drop (e.column - 1) = ((body line).drop p).drop (e.column - 1 - p) := by
      rw [List.drop_drop, show p + (e.column - 1 - p) = e.column - 1 by omega]
    rw [← List.drop_drop, List.take_append_drop, there, List.take_append_drop]
  conv => lhs; rw [cut]
  rw [substituteFrom_append _ ahead, kept, show p + (e.column - 1 - p) = e.column - 1 by omega,
    substituteFrom_start _ (by omega) taken later]

/-- **The replay of a line**: what it accepts lies in the line, in order and apart, and its result
is the substitution. -/
theorem Passed.replay_ok {edits : List Edit} {out : Bytes}
    (sorted : edits.Pairwise fun a b => a.column ≤ b.column)
    (h : Passed line p done offset written now) (ok : replay offset written edits now = .ok out) :
    (∀ e ∈ edits, p < e.column ∧ e.column - 1 + e.length ≤ contentLength line) ∧
      edits.Pairwise Before ∧
      out = done ++ substituteFrom edits p ((body line).drop p) ++ terminator line := by
  induction edits generalizing p done offset written now with
  | nil =>
    simp only [replay, Except.ok.injEq] at ok
    refine ⟨by simp, .nil, ?_⟩
    rw [← ok, h.shape, substituteFrom_nil]
  | cons e edits ih =>
    obtain ⟨free, fits, ok⟩ := replay_cons_ok_iff.1 ok
    obtain ⟨behind, inside, next⟩ := h.step free fits
    obtain ⟨first, sorted⟩ := List.pairwise_cons.1 sorted
    obtain ⟨bounds, apart, result⟩ := ih sorted next ok
    have later : ∀ a ∈ edits, e.Before a := by
      intro a ha
      have := (bounds a ha).1
      simp only [Before]
      omega
    refine ⟨?_, List.pairwise_cons.2 ⟨later, apart⟩, ?_⟩
    · intro a ha
      rcases List.mem_cons.1 ha with rfl | ha
      · exact ⟨behind, inside⟩
      · have := bounds a ha
        have := first a ha
        omega
    · rw [result, substituteFrom_step behind inside later]
      simp only [List.append_assoc]

end Passed

/-! ## All lines -/

theorem replayLines_nil_ok_iff {edits : List Edit} {n : Nat} {outs : List Bytes} :
    replayLines edits n [] = .ok outs ↔ (∀ e ∈ edits, e.line < n) ∧ outs = [] := by
  rw [replayLines]
  cases hf : edits.find? (n ≤ ·.line) with
  | some e =>
    refine ⟨nofun, fun h => ?_⟩
    have hle : n ≤ e.line := by simpa using List.find?_some hf
    have := h.1 e (List.mem_of_find?_eq_some hf)
    omega
  | none =>
    have hlt : ∀ e ∈ edits, e.line < n := by simpa using List.find?_eq_none.1 hf
    exact ⟨fun h => ⟨hlt, (Except.ok.inj h).symm⟩, fun h => by rw [h.2]⟩

theorem replayLines_cons_ok_iff {edits : List Edit} {n : Nat} {line : Bytes} {rest outs : List Bytes} :
    replayLines edits n (line :: rest) = .ok outs ↔
      ∃ out more, replay 0 0 (edits.filter (·.line == n)) line = .ok out ∧
        replayLines edits (n + 1) rest = .ok more ∧ outs = out :: more := by
  rw [replayLines]
  cases hr : replay 0 0 (edits.filter (·.line == n)) line with
  | error fault => exact ⟨nofun, nofun⟩
  | ok out =>
    cases hm : replayLines edits (n + 1) rest with
    | error fault => exact ⟨nofun, nofun⟩
    | ok more =>
      constructor
      · intro h
        exact ⟨out, more, rfl, rfl, (Except.ok.inj h).symm⟩
      · rintro ⟨out', more', h, h', rfl⟩
        cases h
        cases h'
        rfl

theorem sorted_filter_line {edits : List Edit} (sorted : edits.Pairwise fun a b => a.precedes b = true)
    (n : Nat) : (edits.filter (·.line == n)).Pairwise fun a b => a.column ≤ b.column := by
  rw [List.pairwise_filter]
  refine sorted.imp fun {a b} h ha hb => ?_
  simp only [precedes, beq_iff_eq, Bool.or_eq_true, Bool.and_eq_true, decide_eq_true_eq] at h ha hb
  omega

/-- The replay of all lines: every edit from line `n` on lies in its line, each line's edits are in
order and apart, and each line is substituted. -/
theorem replayLines_ok {edits : List Edit} (sorted : edits.Pairwise fun a b => a.precedes b = true)
    {n : Nat} {ls outs : List Bytes} (ok : replayLines edits n ls = .ok outs) :
    (∀ e ∈ edits, n ≤ e.line → 1 ≤ e.column ∧
      ∃ line, ls[e.line - n]? = some line ∧ e.column - 1 + e.length ≤ contentLength line) ∧
    (∀ m, n ≤ m → (edits.filter (·.line == m)).Pairwise Before) ∧
    outs = ls.mapIdx fun i line => substituteLine (edits.filter (·.line == n + i)) line := by
  induction ls generalizing n outs with
  | nil =>
    obtain ⟨below, rfl⟩ := replayLines_nil_ok_iff.1 ok
    refine ⟨fun e he hn => absurd (below e he) (Nat.not_lt.2 hn), fun m hm => ?_, rfl⟩
    have none : edits.filter (·.line == m) = [] := by
      refine List.filter_eq_nil_iff.2 fun e he => ?_
      have := below e he
      simp only [beq_iff_eq]
      omega
    rw [none]
    exact .nil
  | cons line rest ih =>
    obtain ⟨out, more, first, others, rfl⟩ := replayLines_cons_ok_iff.1 ok
    obtain ⟨bounds, apart, result⟩ := (Passed.start line).replay_ok (sorted_filter_line sorted n) first
    obtain ⟨inside, apart', result'⟩ := ih others
    refine ⟨fun e he hn => ?_, fun m hm => ?_, ?_⟩
    · rcases Nat.eq_or_lt_of_le hn with rfl | hlt
      · have := bounds e (List.mem_filter.2 ⟨he, by simp⟩)
        exact ⟨this.1, line, by simp, this.2⟩
      · obtain ⟨hc, l, hl, hb⟩ := inside e he hlt
        refine ⟨hc, l, ?_, hb⟩
        rw [show e.line - n = e.line - (n + 1) + 1 by omega, List.getElem?_cons_succ]
        exact hl
    · rcases Nat.eq_or_lt_of_le hm with rfl | hlt
      · exact apart
      · exact apart' m hlt
    · rw [List.mapIdx_cons, result, result']
      simp only [List.nil_append, List.drop_zero, Nat.add_zero, substituteLine, Nat.add_assoc,
        Nat.add_comm 1]

/-! ## The order of edits -/

theorem misplaced?_eq_none_iff {seen : List Position} {edits : List Edit} :
    misplaced? seen edits = none ↔
      (∀ e ∈ edits, e.key ∉ seen ∧ 1 ≤ e.line ∧ 1 ≤ e.column) ∧ (edits.map key).Nodup := by
  induction edits generalizing seen with
  | nil => simp [misplaced?]
  | cons e edits ih =>
    rw [misplaced?]
    by_cases hs : e.key ∈ seen
    · simp [hs]
    by_cases hz : e.line = 0 ∨ e.column = 0
    · rcases hz with hz | hz <;> simp [hs, hz]
    · have hl : 1 ≤ e.line := by omega
      have hc : 1 ≤ e.column := by omega
      simp only [List.contains_eq_mem, hs, decide_false, Bool.false_eq_true, if_false, Bool.or_eq_true,
        beq_iff_eq, hz, ih]
      simp only [List.mem_cons, not_or, List.map_cons, List.nodup_cons, List.mem_map, not_exists, not_and,
        forall_eq_or_imp]
      constructor
      · rintro ⟨each, nodup⟩
        exact ⟨⟨⟨hs, hl, hc⟩, fun a ha => ⟨(each a ha).1.2, (each a ha).2⟩⟩, fun a ha => (each a ha).1.1, nodup⟩
      · rintro ⟨⟨-, each⟩, fresh, nodup⟩
        exact ⟨fun a ha => ⟨⟨fresh a ha, (each a ha).1⟩, (each a ha).2⟩, nodup⟩

theorem pairwise_mergeSort_precedes (edits : List Edit) :
    (edits.mergeSort precedes).Pairwise fun a b => a.precedes b = true := by
  apply List.pairwise_mergeSort
  · intro a b c hab hbc
    simp only [precedes, Bool.or_eq_true, Bool.and_eq_true, decide_eq_true_eq, beq_iff_eq] at hab hbc ⊢
    omega
  · intro a b
    simp only [precedes, Bool.or_eq_true, Bool.and_eq_true, decide_eq_true_eq, beq_iff_eq]
    omega

/-- What holds of the edits of each line holds of any two edits of one line. -/
theorem pairwise_of_filter_line {R : Edit → Edit → Prop} {edits : List Edit}
    (h : ∀ n, (edits.filter (·.line == n)).Pairwise R) :
    edits.Pairwise fun a b => a.line = b.line → R a b := by
  induction edits with
  | nil => exact .nil
  | cons e edits ih =>
    refine List.pairwise_cons.2 ⟨fun a ha hl => ?_, ih fun n => ?_⟩
    · have := h e.line
      rw [List.filter_cons_of_pos (by simp)] at this
      exact (List.pairwise_cons.1 this).1 a (List.mem_filter.2 ⟨ha, by simp [hl]⟩)
    · exact (h n).sublist ((List.sublist_cons_self e edits).filter _)

theorem Apart.symm {a b : Edit} (h : a.Apart b) : b.Apart a :=
  fun hl => ⟨(h hl.symm).1.symm, (h hl.symm).2.symm⟩

/-- At most one edit of a line starts at a column. -/
theorem inserted_perm {as bs : List Edit} (h : as.Perm bs) (distinct : (as.map column).Nodup) (i : Nat) :
    inserted as i = inserted bs i := by
  have hp := h.filter (·.column == i + 1)
  have hd : (as.filter (·.column == i + 1)).Pairwise fun a b => a.column ≠ b.column :=
    (List.pairwise_map.1 distinct).filter _
  have hc : ∀ a ∈ as.filter (·.column == i + 1), a.column = i + 1 := by
    intro a ha
    simpa using (List.mem_filter.1 ha).2
  have same : as.filter (·.column == i + 1) = bs.filter (·.column == i + 1) := by
    generalize as.filter (·.column == i + 1) = found at hp hd hc ⊢
    match found with
    | [] => exact hp.nil_eq
    | [a] => exact hp.symm.eq_singleton.symm
    | a :: b :: rest =>
      have := (List.pairwise_cons.1 hd).1 b (by simp)
      exact absurd ((hc a (by simp)).trans (hc b (by simp)).symm) this
  rw [inserted, inserted, same]

theorem any_covers_perm {as bs : List Edit} (h : as.Perm bs) (i : Nat) :
    as.any (·.covers i) = bs.any (·.covers i) := by
  rw [Bool.eq_iff_iff, List.any_eq_true, List.any_eq_true]
  exact ⟨fun ⟨e, he, hc⟩ => ⟨e, h.mem_iff.1 he, hc⟩, fun ⟨e, he, hc⟩ => ⟨e, h.mem_iff.2 he, hc⟩⟩

/-- The order in which edits of a line are given does not matter. -/
theorem substituteFrom_perm {as bs : List Edit} (h : as.Perm bs) (distinct : (as.map column).Nodup)
    (i : Nat) (line : Bytes) : substituteFrom as i line = substituteFrom bs i line := by
  induction line generalizing i with
  | nil => exact inserted_perm h distinct i
  | cons b rest ih => rw [substituteFrom, substituteFrom, inserted_perm h distinct, any_covers_perm h, ih]

theorem nodup_columns {edits : List Edit} (h : (edits.map key).Nodup) (n : Nat) :
    ((edits.filter (·.line == n)).map column).Nodup := by
  refine List.pairwise_map.2 (List.pairwise_filter.2 ((List.pairwise_map.1 h).imp ?_))
  intro a b hne ha hb hc
  simp only [beq_iff_eq] at ha hb
  exact hne (by rw [key, key, ha, hb, hc])

theorem substitute_perm {as bs : List Edit} (h : as.Perm bs) (distinct : (as.map key).Nodup)
    (content : Bytes) : substitute as content = substitute bs content := by
  have each : ∀ (i : Nat) (line : Bytes), substituteLine (as.filter (·.line == i + 1)) line =
      substituteLine (bs.filter (·.line == i + 1)) line := fun i line => by
    rw [substituteLine, substituteLine, substituteFrom_perm (h.filter _) (nodup_columns distinct _)]
  simp only [substitute, each]

/-! ## All edits -/

/-- When edits are carried out. -/
theorem applyAll_ok_iff {edits : List Edit} {content out : Bytes} :
    applyAll edits content = .ok out ↔ misplaced? [] edits = none ∧
      ∃ outs, replayLines (edits.mergeSort precedes) 1 (lines content) = .ok outs ∧ out = outs.flatten := by
  rw [applyAll]
  cases misplaced? [] edits with
  | some fault => exact ⟨nofun, nofun⟩
  | none =>
    cases replayLines (edits.mergeSort precedes) 1 (lines content) with
    | error fault => exact ⟨nofun, nofun⟩
    | ok outs =>
      constructor
      · intro h
        exact ⟨rfl, outs, rfl, (Except.ok.inj h).symm⟩
      · rintro ⟨-, outs', h, rfl⟩
        cases h
        rfl

section Applied

variable {edits : List Edit} {content out : Bytes}

theorem liesIn_of_applyAll (h : applyAll edits content = .ok out) : ∀ e ∈ edits, e.LiesIn content := by
  obtain ⟨placed, outs, ok, -⟩ := applyAll_ok_iff.1 h
  obtain ⟨inside, -, -⟩ := replayLines_ok (pairwise_mergeSort_precedes edits) ok
  intro e he
  have hl := ((misplaced?_eq_none_iff.1 placed).1 e he).2.1
  obtain ⟨hc, line, hline, hb⟩ := inside e (List.mem_mergeSort.2 he) hl
  exact ⟨hl, hc, line, hline, hb⟩

theorem apart_of_applyAll (h : applyAll edits content = .ok out) : edits.Pairwise Apart := by
  obtain ⟨placed, outs, ok, -⟩ := applyAll_ok_iff.1 h
  obtain ⟨each, distinct⟩ := misplaced?_eq_none_iff.1 placed
  obtain ⟨-, apart, -⟩ := replayLines_ok (pairwise_mergeSort_precedes edits) ok
  have perm := List.mergeSort_perm edits precedes
  have ordered : (edits.mergeSort precedes).Pairwise fun a b => a.line = b.line → a.Before b := by
    refine pairwise_of_filter_line fun n => ?_
    rcases Nat.eq_zero_or_pos n with rfl | hn
    · have none : (edits.mergeSort precedes).filter (·.line == 0) = [] := by
        refine List.filter_eq_nil_iff.2 fun e he => ?_
        have := (each e (List.mem_mergeSort.1 he)).2.1
        simp only [beq_iff_eq]
        omega
      rw [none]
      exact .nil
    · exact apart n hn
  have keys : (edits.mergeSort precedes).Pairwise fun a b => a.key ≠ b.key :=
    List.pairwise_map.1 ((perm.map key).nodup_iff.2 distinct)
  have sorted : (edits.mergeSort precedes).Pairwise Apart := by
    refine (ordered.and keys).imp fun {a b} hab hl => ⟨fun hc => hab.2 ?_, .inl (hab.1 hl)⟩
    rw [key, key, hl, hc]
  exact (perm.pairwise_iff Apart.symm).1 sorted

theorem eq_substitute_of_applyAll (h : applyAll edits content = .ok out) : out = substitute edits content := by
  obtain ⟨placed, outs, ok, rfl⟩ := applyAll_ok_iff.1 h
  obtain ⟨-, distinct⟩ := misplaced?_eq_none_iff.1 placed
  obtain ⟨-, -, rfl⟩ := replayLines_ok (pairwise_mergeSort_precedes edits) ok
  rw [substitute_perm (List.mergeSort_perm edits precedes).symm distinct, substitute]
  simp only [Nat.add_comm 1]

/-- **Edits are a substitution.** Edits that are carried out lie in the original content, apart from
each other, and the result is the original content with all of them carried out at once. -/
theorem applyAll_substitutes (h : applyAll edits content = .ok out) : Substituted edits content out :=
  ⟨liesIn_of_applyAll h, apart_of_applyAll h, eq_substitute_of_applyAll h⟩

end Applied

/-- Two lines with a growing, a shrinking and an inserting edit, given out of order. -/
theorem applyAll_substitutes_mixed :
    let content := Utf8.encode "aaXXbb\r\ncYd\n"
    let edits : List Edit :=
      [⟨2, 4, 0, "!", .low⟩, ⟨1, 3, 2, "P", .high⟩, ⟨2, 2, 1, "QQQ", .high⟩, ⟨1, 6, 1, "", .low⟩]
    applyAll edits content = .ok (Utf8.encode "aaPb\r\ncQQQd!\n") ∧
      Substituted edits content (Utf8.encode "aaPb\r\ncQQQd!\n") := by
  have h : applyAll
      [⟨2, 4, 0, "!", .low⟩, ⟨1, 3, 2, "P", .high⟩, ⟨2, 2, 1, "QQQ", .high⟩, ⟨1, 6, 1, "", .low⟩]
      (Utf8.encode "aaXXbb\r\ncYd\n") = .ok (Utf8.encode "aaPb\r\ncQQQd!\n") := by cbv
  exact ⟨h, applyAll_substitutes h⟩

end PhpRename.Edit
