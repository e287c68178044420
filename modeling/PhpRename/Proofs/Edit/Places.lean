import PhpRename.Proofs.Edit.Address

/-!
# Substitution place by place

The substitution of edits goes through a content line by line. Here it goes from place to place, so that a
stretch of the content can be looked at whatever lines it lies in: a stretch that no edit aims at stays, and
an edit puts its text in the place of the stretch that it aims at.
-/

set_option autoImplicit false

namespace PhpRename.Edit

/-! ## The two ways to go through a content -/

/-- What the edits put in at a place. -/
def insertedAt (edits : List Edit) (p : Position) : Bytes := (edits.filter (·.key == p)).flatMap bytes

/-- Whether an edit replaces the byte at a place. -/
def coversAt (e : Edit) (p : Position) : Bool :=
  e.line == p.line && (e.column ≤ p.column && p.column < e.column + e.length)

/-- The bytes of a content from a place on, with all edits carried out at once. -/
def substituteAt (edits : List Edit) (p : Position) : Bytes → Bytes
  | [] => insertedAt edits p
  | b :: rest =>
    insertedAt edits p ++ ((if edits.any (·.coversAt p) then [] else [b]) ++ substituteAt edits (p.step b) rest)

variable {edits : List Edit}

theorem inserted_eq_insertedAt (edits : List Edit) (n i : Nat) :
    inserted (edits.filter (·.line == n)) i = insertedAt edits ⟨n, i + 1⟩ := by
  have same : ∀ e ∈ edits, (e.column == i + 1 && e.line == n) = (e.key == ⟨n, i + 1⟩) := by
    intro e he
    rw [Bool.eq_iff_iff]
    simp only [Bool.and_eq_true, beq_iff_eq, key, Position.mk.injEq]
    exact And.comm
  rw [inserted, insertedAt, List.filter_filter, List.filter_congr same]

theorem any_covers_eq_any_coversAt (edits : List Edit) (n i : Nat) :
    (edits.filter (·.line == n)).any (·.covers i) = edits.any (·.coversAt ⟨n, i + 1⟩) := by
  rw [List.any_filter]
  rfl

/-- In a line the two ways go together. -/
theorem substituteFrom_eq_substituteAt (edits : List Edit) (n i : Nat) {xs : Bytes} (no : 0x0a ∉ xs) (ys rest : Bytes)
    (ends : insertedAt edits ⟨n, i + xs.length + 1⟩ ++ ys = substituteAt edits ⟨n, i + xs.length + 1⟩ rest) :
    substituteFrom (edits.filter (·.line == n)) i xs ++ ys = substituteAt edits ⟨n, i + 1⟩ (xs ++ rest) := by
  induction xs generalizing i with
  | nil =>
    rw [substituteFrom, inserted_eq_insertedAt]
    exact ends
  | cons x xs ih =>
    obtain ⟨first, no⟩ := not_or.1 (mt List.mem_cons.2 no)
    have step : (⟨n, i + 1⟩ : Position).step x = ⟨n, i + 1 + 1⟩ := by
      rw [Position.step, if_neg (by rw [beq_iff_eq]; exact Ne.symm first)]
    have sum : i + (x :: xs).length = i + 1 + xs.length := by rw [List.length_cons]; omega
    rw [sum] at ends
    rw [List.cons_append, substituteAt, substituteFrom, step, ← ih (i + 1) no ends, inserted_eq_insertedAt,
      any_covers_eq_any_coversAt, List.append_assoc, List.append_assoc]

/-- A content is its last line, or a line and the content behind it. -/
theorem content_induction {P : Bytes → Prop} (last : ∀ xs, 0x0a ∉ xs → P xs)
    (line : ∀ xs rest, 0x0a ∉ xs → P rest → P (xs ++ 0x0a :: rest)) (content : Bytes) : P content := by
  induction size : content.length using Nat.strong_induction_on generalizing content with
  | _ n ih =>
    by_cases feed : 0x0a ∈ content
    · obtain ⟨xs, rest, rfl, no⟩ := List.eq_append_cons_of_mem feed
      apply line xs rest no
      apply ih rest.length _ rest rfl
      rw [← size, List.length_append, List.length_cons]
      omega
    · exact last content feed

theorem lines_of_notMem {xs : Bytes} (no : 0x0a ∉ xs) (nonempty : xs ≠ []) : lines xs = [xs] := by
  induction xs with
  | nil => exact absurd rfl nonempty
  | cons x xs ih =>
    obtain ⟨first, no⟩ := not_or.1 (mt List.mem_cons.2 no)
    rw [lines_cons (Ne.symm first)]
    cases xs with
    | nil => rfl
    | cons y ys =>
      rw [ih no (List.cons_ne_nil y ys)]
      rfl

theorem lines_line {xs : Bytes} (no : 0x0a ∉ xs) (rest : Bytes) :
    lines (xs ++ 0x0a :: rest) = (xs ++ [0x0a]) :: lines rest := by
  have one := length_lines_lineFeed xs
  rw [List.count_eq_zero.2 no] at one
  obtain ⟨line, single⟩ := List.length_eq_one_iff.1 one
  have whole := flatten_lines (xs ++ [0x0a])
  rw [single, List.flatten_singleton] at whole
  rw [lines_lineFeed, single, whole, List.singleton_append]

/-- Edits that lie in the lines of a content, the first of which has number `n`. -/
def LieFrom (edits : List Edit) (n : Nat) (content : Bytes) : Prop :=
  ∀ e ∈ edits, n ≤ e.line → 1 ≤ e.column ∧
    ∃ line, (lines content)[e.line - n]? = some line ∧ e.column - 1 + e.length ≤ contentLength line

/-- Nothing is put in behind the end of a line. -/
theorem insertedAt_eq_nil {p : Position} (past : ∀ e ∈ edits, e.line = p.line → e.column < p.column) :
    insertedAt edits p = [] := by
  have none : edits.filter (·.key == p) = [] := by
    apply List.filter_eq_nil_iff.2
    intro e he starts
    have here : e.key = p := eq_of_beq starts
    have behind := past e he (congrArg Position.line here)
    have column : e.column = p.column := congrArg Position.column here
    omega
  rw [insertedAt, none, List.flatMap_nil]

theorem any_coversAt_eq_false {p : Position}
    (past : ∀ e ∈ edits, e.line = p.line → e.column + e.length ≤ p.column) : edits.any (·.coversAt p) = false := by
  apply List.any_eq_false.2
  intro e he covers
  simp only [coversAt, Bool.and_eq_true, beq_iff_eq, decide_eq_true_eq] at covers
  have behind := past e he covers.1
  omega

/-- At the end of a line its terminator is kept, and what follows is the next line. -/
theorem substituteAt_terminator {n len : Nat} {ending rest : Bytes}
    (fits : ∀ e ∈ edits, e.line = n → 1 ≤ e.column ∧ e.column - 1 + e.length ≤ len)
    (ends : ending = [0x0a] ∨ ending = [0x0d, 0x0a]) :
    substituteAt edits ⟨n, len + 1⟩ (ending ++ rest) =
      insertedAt edits ⟨n, len + 1⟩ ++ (ending ++ substituteAt edits ⟨n + 1, 1⟩ rest) := by
  have past : edits.any (·.coversAt ⟨n, len + 1⟩) = false := by
    apply any_coversAt_eq_false
    intro e he line
    have := fits e he line
    show e.column + e.length ≤ len + 1
    omega
  obtain rfl | rfl := ends
  · rw [List.singleton_append, substituteAt, past, if_neg Bool.false_ne_true]
    rfl
  · have past' : edits.any (·.coversAt ⟨n, len + 1 + 1⟩) = false := by
      apply any_coversAt_eq_false
      intro e he line
      have := fits e he line
      show e.column + e.length ≤ len + 1 + 1
      omega
    have none : insertedAt edits ⟨n, len + 1 + 1⟩ = [] := by
      apply insertedAt_eq_nil
      intro e he line
      have := fits e he line
      show e.column < len + 1 + 1
      omega
    have step : (⟨n, len + 1⟩ : Position).step 0x0d = ⟨n, len + 1 + 1⟩ := rfl
    have feed : (⟨n, len + 1 + 1⟩ : Position).step 0x0a = ⟨n + 1, 1⟩ := rfl
    rw [List.cons_append, List.singleton_append, substituteAt, past, if_neg Bool.false_ne_true, step, substituteAt,
      past', if_neg Bool.false_ne_true, none, feed]
    rfl

/-- How a line ends: its body and its terminator. -/
theorem line_split {xs : Bytes} (no : 0x0a ∉ xs) : ∃ start ending, xs ++ [0x0a] = start ++ ending ∧
    (ending = [0x0a] ∨ ending = [0x0d, 0x0a]) ∧ body (xs ++ [0x0a]) = start ∧ terminator (xs ++ [0x0a]) = ending ∧
      0x0a ∉ start := by
  obtain ⟨open_, -⟩ | ⟨c, line, -, length⟩ | ⟨c, line, length⟩ := contentLength_cases (xs ++ [0x0a])
  · rw [List.getLast?_append, List.getLast?_singleton, Option.some_or] at open_
    exact absurd rfl open_
  · refine ⟨c, [0x0a], line, .inl rfl, ?_, ?_, ?_⟩
    · rw [body, length, line, List.take_left]
    · rw [terminator, length, line, List.drop_left]
    · rw [← (List.append_inj' line rfl).1]
      exact no
  · refine ⟨c, [0x0d, 0x0a], line, .inr rfl, ?_, ?_, ?_⟩
    · rw [body, length, line, List.take_left]
    · rw [terminator, length, line, List.drop_left]
    · have front : xs = c ++ [0x0d] := (List.append_inj' (line.trans (by simp)) rfl).1
      intro mem
      apply no
      rw [front]
      exact List.mem_append_left _ mem

/-- The two ways agree on a last line without a line feed. -/
theorem substituteLine_eq_substituteAt (edits : List Edit) {xs : Bytes} (no : 0x0a ∉ xs) (n : Nat) :
    substituteLine (edits.filter (·.line == n)) xs = substituteAt edits ⟨n, 1⟩ xs := by
  have length : contentLength xs = xs.length := by
    apply contentLength_of_getLast?_ne
    intro feed
    exact no (List.mem_of_getLast? feed)
  have line := substituteFrom_eq_substituteAt edits n 0 no [] [] (by rw [substituteAt, List.append_nil])
  rw [List.append_nil, List.append_nil] at line
  rw [substituteLine, body, terminator, length, List.take_length, List.drop_length, List.append_nil]
  exact line

/-- **The two ways agree** on edits that lie in the lines of the content. -/
theorem substituteLines_eq_substituteAt (edits : List Edit) {content : Bytes} {n : Nat} (lie : LieFrom edits n content) :
    ((lines content).mapIdx fun i line => substituteLine (edits.filter (·.line == n + i)) line).flatten =
      substituteAt edits ⟨n, 1⟩ content := by
  induction content using content_induction generalizing n with
  | last xs no =>
    by_cases empty : xs = []
    · subst empty
      have none : insertedAt edits ⟨n, 1⟩ = [] := by
        apply insertedAt_eq_nil
        intro e he line
        obtain ⟨-, _, missing, -⟩ := lie e he (Nat.le_of_eq (Eq.symm line))
        cases missing
      rw [substituteAt, none]
      rfl
    · rw [lines_of_notMem no empty, List.mapIdx_cons, List.mapIdx_nil, List.flatten_singleton]
      exact substituteLine_eq_substituteAt edits no n
  | line xs rest no ih =>
    obtain ⟨start, ending, whole, ended, before, behind, noStart⟩ := line_split no
    have length : contentLength (xs ++ [0x0a]) = start.length := by rw [← length_body, before]
    have fits : ∀ e ∈ edits, e.line = n → 1 ≤ e.column ∧ e.column - 1 + e.length ≤ start.length := by
      intro e he here
      obtain ⟨column, line, first, fits⟩ := lie e he (Nat.le_of_eq here.symm)
      rw [here, Nat.sub_self, lines_line no, List.getElem?_cons_zero] at first
      obtain rfl := Option.some.inj first
      rw [length] at fits
      exact ⟨column, fits⟩
    have lie' : LieFrom edits (n + 1) rest := by
      intro e he later
      obtain ⟨column, line, found, fits⟩ := lie e he (Nat.le_of_succ_le later)
      rw [lines_line no, show e.line - n = e.line - (n + 1) + 1 by omega, List.getElem?_cons_succ] at found
      exact ⟨column, line, found, fits⟩
    have here := substituteFrom_eq_substituteAt edits n 0 noStart (ending ++ substituteAt edits ⟨n + 1, 1⟩ rest)
      (ending ++ rest) (by rw [Nat.zero_add]; exact (substituteAt_terminator fits ended).symm)
    have split : xs ++ 0x0a :: rest = start ++ (ending ++ rest) := by
      rw [← List.append_assoc, ← whole, List.append_assoc, List.singleton_append]
    have next : ((lines rest).mapIdx fun i line => substituteLine (edits.filter (·.line == n + (i + 1))) line).flatten =
        substituteAt edits ⟨n + 1, 1⟩ rest := by
      rw [← ih lie']
      congr 2
      funext i line
      rw [Nat.add_right_comm n 1 i, Nat.add_assoc]
    rw [lines_line no, List.mapIdx_cons, List.flatten_cons, next, substituteLine, before, behind, split, ← here,
      Nat.add_zero, List.append_assoc]

theorem substitute_eq_substituteAt {content : Bytes} (inside : ∀ e ∈ edits, e.LiesIn content) :
    substitute edits content = substituteAt edits .start content := by
  have lie : LieFrom edits 1 content := fun e he _ => (inside e he).2
  have numbered : (fun i line => substituteLine (edits.filter (·.line == i + 1)) line) =
      fun i line => substituteLine (edits.filter (·.line == 1 + i)) line := by
    funext i line
    rw [Nat.add_comm]
  unfold substitute
  rw [numbered]
  exact substituteLines_eq_substituteAt edits lie

/-! ## Stretches and edits -/

section

variable {content bs : Bytes} {e : Edit} {m n : Nat}

/-- An edit starts at the place of the stretch that it aims at, and at no other. -/
theorem Targets.key_eq_iff (h : e.Targets content n bs) (bound : n ≤ content.length) (bound' : m ≤ content.length) :
    e.key = Position.ofOffset content m ↔ n = m := by
  rw [h.key]
  constructor
  · exact Position.ofOffset_inj bound bound'
  · rintro rfl
    rfl

/-- An edit covers the places of the stretch that it aims at, and no others. -/
theorem Targets.coversAt_iff (h : e.Targets content n bs) (no : 0x0a ∉ bs) (bound : n ≤ content.length)
    (bound' : m ≤ content.length) :
    e.coversAt (Position.ofOffset content m) = true ↔ n ≤ m ∧ m < n + bs.length := by
  have line : e.line = (Position.ofOffset content n).line := congrArg Position.line h.key
  have column : e.column = (Position.ofOffset content n).column := congrArg Position.column h.key
  simp only [coversAt, Bool.and_eq_true, beq_iff_eq, decide_eq_true_eq, line, column, h.length]
  constructor
  · rintro ⟨same, first, last⟩
    obtain le | le := Nat.le_total n m
    · have := Position.column_ofOffset le bound' same
      omega
    · have := Position.column_ofOffset le bound same.symm
      omega
  · rintro ⟨le, lt⟩
    obtain ⟨after, split⟩ := h.stands
    have noFeed : 0x0a ∉ (content.drop n).take (m - n) := by
      rw [← split, List.take_append_of_le_length (by omega)]
      exact fun mem => no (List.mem_of_mem_take mem)
    have length : ((content.drop n).take (m - n)).length = m - n := by
      rw [List.length_take, List.length_drop]
      omega
    have walk : Position.ofOffset content m = ⟨(Position.ofOffset content n).line,
        (Position.ofOffset content n).column + (m - n)⟩ := by
      rw [← Position.start_after_take, ← Position.start_after_take, show m = n + (m - n) by omega, List.take_add,
        Position.after_append, Position.after_of_notMem _ noFeed, length]
      simp
    rw [walk]
    refine ⟨rfl, ?_, ?_⟩
    · show _ ≤ _ + (m - n)
      omega
    · show _ + (m - n) < _
      omega

/-- A stretch at whose bytes nothing is put in, and whose bytes are all replaced or all kept. -/
theorem substituteAt_stretch {xs ys : Bytes} (here : content.drop m = xs ++ ys) (gone : Bool)
    (even : ∀ k, m ≤ k → k < m + xs.length → insertedAt edits (Position.ofOffset content k) = [] ∧
      edits.any (·.coversAt (Position.ofOffset content k)) = gone) :
    substituteAt edits (Position.ofOffset content m) (xs ++ ys) =
      (if gone then [] else xs) ++ substituteAt edits (Position.ofOffset content (m + xs.length)) ys := by
  induction xs generalizing m with
  | nil =>
    rw [ite_self]
    rfl
  | cons x xs ih =>
    obtain ⟨none, all⟩ := even m (Nat.le_refl m) (by rw [List.length_cons]; omega)
    have next : content.drop (m + 1) = xs ++ ys := by rw [← List.drop_drop, here, List.cons_append, List.drop_one,
      List.tail_cons]
    have rest := ih next fun k le lt => even k (by omega) (by rw [List.length_cons]; omega)
    rw [List.cons_append, substituteAt, none, all, ← Position.ofOffset_succ here, rest, List.length_cons,
      Nat.add_assoc, Nat.add_comm 1]
    cases gone <;> rfl

/-- The edit is the only one that starts at its place. -/
theorem filter_key_of_apart (apart : edits.Pairwise Apart) (mem : e ∈ edits) : edits.filter (·.key == e.key) = [e] := by
  induction edits with
  | nil => cases mem
  | cons a edits ih =>
    obtain ⟨first, others⟩ := List.pairwise_cons.1 apart
    have differ : ∀ b ∈ edits, ¬ b.key = a.key := by
      intro b hb same
      have line : b.line = a.line := congrArg Position.line same
      exact (first b hb line.symm).1 (congrArg Position.column same).symm
    obtain rfl | mem := List.mem_cons.1 mem
    · have none : edits.filter (·.key == e.key) = [] := by
        apply List.filter_eq_nil_iff.2
        exact fun b hb same => differ b hb (eq_of_beq same)
      rw [List.filter_cons, if_pos (beq_self_eq_true _), none]
    · have other : ¬ (a.key == e.key) = true := fun same => differ e mem (eq_of_beq same).symm
      rw [List.filter_cons, if_neg other, ih others mem]

/-- An edit that aims at a stretch outside of some bytes of the content. -/
def AimsOutside (content bs : Bytes) (m len : Nat) (e : Edit) : Prop :=
  ∃ n, e.Targets content n bs ∧ (n + bs.length ≤ m ∨ m + len ≤ n)

section

variable (no : 0x0a ∉ bs) (nonempty : bs ≠ [])
include no nonempty

/-- An edit that aims outside has nothing to do with a byte. -/
theorem AimsOutside.apart {len k : Nat} (h : AimsOutside content bs m len e) (le : m ≤ k) (lt : k < m + len)
    (bound : k < content.length) :
    e.key ≠ Position.ofOffset content k ∧ ¬ e.coversAt (Position.ofOffset content k) = true := by
  obtain ⟨n, aims, outside⟩ := h
  have inside := aims.offset_le nonempty
  have some := List.length_pos_iff.2 nonempty
  rw [Ne, aims.key_eq_iff (by omega) (Nat.le_of_lt bound), aims.coversAt_iff no (by omega) (Nat.le_of_lt bound)]
  omega

/-- A stretch that no edit aims at stays. -/
theorem substituteAt_keep {xs ys : Bytes} (here : content.drop m = xs ++ ys)
    (outside : ∀ e ∈ edits, AimsOutside content bs m xs.length e) :
    substituteAt edits (Position.ofOffset content m) (xs ++ ys) =
      xs ++ substituteAt edits (Position.ofOffset content (m + xs.length)) ys := by
  have count := congrArg List.length here
  rw [List.length_drop, List.length_append] at count
  apply substituteAt_stretch here false
  intro k le lt
  constructor
  · rw [insertedAt, List.filter_eq_nil_iff.2, List.flatMap_nil]
    intro e he starts
    exact ((outside e he).apart no nonempty le lt (by omega)).1 (eq_of_beq starts)
  · apply List.any_eq_false.2
    intro e he
    exact ((outside e he).apart no nonempty le lt (by omega)).2

/-- An edit puts its text in the place of the stretch that it aims at. -/
theorem substituteAt_replace {ys : Bytes} (apart : edits.Pairwise Apart) (mem : e ∈ edits)
    (aims : e.Targets content m bs) (here : content.drop m = bs ++ ys)
    (outside : ∀ a ∈ edits, a = e ∨ AimsOutside content bs m bs.length a) :
    substituteAt edits (Position.ofOffset content m) (bs ++ ys) =
      e.bytes ++ substituteAt edits (Position.ofOffset content (m + bs.length)) ys := by
  have count := congrArg List.length here
  rw [List.length_drop, List.length_append] at count
  have covers : ∀ k, m ≤ k → k < m + bs.length → edits.any (·.coversAt (Position.ofOffset content k)) = true := by
    intro k le lt
    apply List.any_eq_true.2
    exact ⟨e, mem, (aims.coversAt_iff no (by omega) (by omega)).2 ⟨le, lt⟩⟩
  obtain ⟨b, tail, rfl⟩ := List.exists_cons_of_ne_nil nonempty
  rw [List.length_cons] at count
  have first : insertedAt edits (Position.ofOffset content m) = e.bytes := by
    rw [insertedAt, ← aims.key, filter_key_of_apart apart mem, List.flatMap_singleton]
  have next : content.drop (m + 1) = tail ++ ys := by
    rw [← List.drop_drop, here, List.cons_append, List.drop_one, List.tail_cons]
  have rest : substituteAt edits (Position.ofOffset content (m + 1)) (tail ++ ys) =
      substituteAt edits (Position.ofOffset content (m + 1 + tail.length)) ys := by
    apply substituteAt_stretch next true
    intro k le lt
    refine ⟨?_, covers k (by omega) (by rw [List.length_cons]; omega)⟩
    rw [insertedAt, List.filter_eq_nil_iff.2, List.flatMap_nil]
    intro a ha starts
    obtain rfl | away := outside a ha
    · have same := (aims.key_eq_iff (by omega) (by omega)).1 (eq_of_beq starts)
      omega
    · exact (away.apart no nonempty (by omega) (by rw [List.length_cons]; omega) (by omega)).1 (eq_of_beq starts)
  rw [List.cons_append, substituteAt, first, covers m (Nat.le_refl m) (by rw [List.length_cons]; omega), if_pos rfl,
    ← Position.ofOffset_succ here, rest, List.length_cons, List.nil_append, Nat.add_assoc, Nat.add_comm 1]

end

end

end PhpRename.Edit
