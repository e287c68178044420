import PhpRename.Proofs.Edit.Disjoint

/-!
# When edits are accepted

Edits that lie in a content, apart from each other, are refused for one reason only. An insertion at
the end of a line is measured against the line as the earlier edits left it, and what they left may
end in a byte that has come to read as part of the line's terminator (`Forges`): the insertion then
lies past the content. `applyAll_accepts_iff` says that nothing else is ever refused.
-/

set_option autoImplicit false

namespace PhpRename.Edit

/-! ## Forged terminators -/

/-- In front of a terminator, the last of some bytes reads as part of it: a carriage return in front
of a lone line feed, or a line feed where there is no terminator. -/
def Forges (xs terminator : Bytes) : Prop :=
  (terminator = [0x0a] ∧ xs.getLast? = some 0x0d) ∨ (terminator = [] ∧ xs.getLast? = some 0x0a)

/-- Only the last byte matters. -/
theorem Forges.congr {xs ys terminator : Bytes} (same : xs.getLast? = ys.getLast?) (h : Forges xs terminator) :
    Forges ys terminator := by
  rwa [Forges, ← same]

/-- Bytes in front of the terminator of a line are all content unless they forge a terminator. -/
theorem contentLength_append_terminator_iff {line xs : Bytes} :
    contentLength (xs ++ terminator line) = xs.length ↔ ¬ Forges xs (terminator line) := by
  unfold terminator
  obtain ⟨-, len⟩ | ⟨c, rfl, -, len⟩ | ⟨c, rfl, len⟩ := contentLength_cases line
  · rw [len, List.drop_length, List.append_nil]
    constructor
    · rintro whole (⟨no, -⟩ | ⟨-, last⟩)
      · cases no
      obtain ⟨init, rfl⟩ := List.getLast?_eq_some_iff.1 last
      have := contentLength_append_lineFeed_le init
      rw [List.length_append, List.length_singleton] at whole
      omega
    · intro free
      exact contentLength_of_getLast?_ne fun last => free (.inr ⟨rfl, last⟩)
  · rw [len, List.drop_left]
    constructor
    · rintro whole (⟨-, last⟩ | ⟨no, -⟩)
      · obtain ⟨init, rfl⟩ := List.getLast?_eq_some_iff.1 last
        have shorter := contentLength_append_return init
        rw [List.append_assoc, List.length_append, List.length_singleton] at whole
        have := whole.symm.trans shorter
        omega
      · cases no
    · intro free
      exact contentLength_append_lineFeed fun last => free (.inl ⟨rfl, last⟩)
  · rw [len, List.drop_left]
    refine iff_of_true (contentLength_append_return xs) ?_
    rintro (⟨no, -⟩ | ⟨no, -⟩) <;> cases no

/-- A line's own content forges nothing. -/
theorem not_forges_body (line : Bytes) : ¬ Forges (body line) (terminator line) := by
  rw [← contentLength_append_terminator_iff, body_append_terminator, length_body]

/-! ## The replay of a line -/

section Passed

variable {line done now : Bytes} {p : Nat} {offset written : Int} {e : Edit}

/-- While some of the original content is left, the changing line has its exact length; once all is
passed, it does unless a terminator is forged. -/
theorem Passed.contentLength_eq_iff (h : Passed line p done offset written now) :
    contentLength now + p = done.length + contentLength line ↔
      ¬ Forges (done ++ (body line).drop p) (terminator line) := by
  have bound := h.bound
  have length : (done ++ (body line).drop p).length = done.length + (contentLength line - p) := by
    rw [List.length_append, List.length_drop, length_body]
  rw [← contentLength_append_terminator_iff, ← h.shape, length]
  omega

/-- Where some of the original content is left, nothing is forged. -/
theorem not_forges_of_lt (left : p < contentLength line) : ¬ Forges (done ++ (body line).drop p) (terminator line) := by
  intro forged
  refine not_forges_body line (forged.congr ?_)
  have short : ¬ (body line).length ≤ p := by
    rw [length_body]
    omega
  have some : (body line).getLast? ≠ none := by
    intro none
    rw [List.getLast?_eq_none_iff.1 none] at short
    exact short (Nat.zero_le p)
  rw [List.getLast?_append, List.getLast?_drop, if_neg short]
  exact Option.or_of_isSome (Option.isSome_iff_ne_none.2 some)

/-- An edit behind what has been passed, and inside the original content, is accepted unless it
inserts at the end of the line behind a forged terminator. -/
theorem Passed.accepts_iff (h : Passed line p done offset written now) (behind : p < e.column)
    (inside : e.column - 1 + e.length ≤ contentLength line) :
    (written < e.column + offset ∧ ((e.column : Int) + offset - 1).toNat + e.length ≤ contentLength now) ↔
      (e.column = contentLength line + 1 → ¬ Forges (done ++ (body line).drop p) (terminator line)) := by
  have ho := h.offset
  have hw := h.written
  have bound := h.bound
  have le := h.contentLength_le
  constructor
  · rintro ⟨-, fits⟩ atEnd
    refine h.contentLength_eq_iff.1 ?_
    omega
  · intro free
    have exact : contentLength now + p = done.length + contentLength line := by
      refine h.contentLength_eq_iff.2 ?_
      by_cases atEnd : e.column = contentLength line + 1
      · exact free atEnd
      · exact not_forges_of_lt (by omega)
    constructor <;> omega

/-- The edits of a line that start before a column. -/
def upTo (edits : List Edit) (column : Nat) : List Edit := edits.filter (·.column < column)

/-- Edits that lie in the rest of a line, in order, are accepted unless one inserts at the end of the
line behind a terminator that the ones before it have forged. -/
theorem Passed.replay_ok_iff {edits : List Edit} (h : Passed line p done offset written now)
    (ordered : edits.Pairwise fun a b => a.column < b.column ∧ a.Before b)
    (inside : ∀ e ∈ edits, p < e.column ∧ e.column - 1 + e.length ≤ contentLength line) :
    (∃ out, replay offset written edits now = .ok out) ↔
      ∀ e ∈ edits, e.column = contentLength line + 1 →
        ¬ Forges (done ++ substituteFrom (upTo edits e.column) p ((body line).drop p)) (terminator line) := by
  induction edits generalizing p done offset written now with
  | nil => exact ⟨fun _ => nofun, fun _ => ⟨now, rfl⟩⟩
  | cons e edits ih =>
    obtain ⟨behind, fits⟩ := inside e (by simp)
    obtain ⟨later, ordered⟩ := List.pairwise_cons.1 ordered
    have first : upTo (e :: edits) e.column = [] := by
      refine List.filter_eq_nil_iff.2 fun a mem => ?_
      rcases List.mem_cons.1 mem with rfl | mem
      · simp
      · have := (later a mem).1
        simp only [decide_eq_true_eq]
        omega
    have accepts := h.accepts_iff behind fits
    rw [List.forall_mem_cons, first, substituteFrom_nil, ← accepts]
    by_cases room : written < e.column + offset ∧ ((e.column : Int) + offset - 1).toNat + e.length ≤ contentLength now
    · obtain ⟨-, -, next⟩ := h.step room.1 room.2
      have after : ∀ a ∈ edits, e.column - 1 + e.length < a.column ∧ a.column - 1 + a.length ≤ contentLength line := by
        intro a mem
        have column := (later a mem).1
        have past := (later a mem).2
        simp only [Before] at past
        exact ⟨by omega, (inside a (by simp [mem])).2⟩
      have goes : (∃ out, replay offset written (e :: edits) now = .ok out) ↔ ∃ out, replay (offset + e.delta) _ edits _ = .ok out :=
        exists_congr fun out => replay_cons_ok_iff.trans ((and_iff_right room.1).trans (and_iff_right room.2))
      rw [goes, ih next ordered after, and_iff_right room]
      refine forall₂_congr fun a mem => ?_
      have split : upTo (e :: edits) a.column = e :: upTo edits a.column :=
        List.filter_cons_of_pos (by simpa using (later a mem).1)
      have before : ∀ b ∈ upTo edits a.column, e.Before b := fun b mem => (later b (List.mem_filter.1 mem).1).2
      rw [split, substituteFrom_step behind fits before]
      simp only [List.append_assoc]
    · refine iff_of_false ?_ fun h => room h.1
      rintro ⟨out, ok⟩
      obtain ⟨free, fits, -⟩ := replay_cons_ok_iff.1 ok
      exact room ⟨free, fits⟩

end Passed

/-! ## All edits -/

/-- The replay of all lines accepts edits when that of each line does, and no edit is on a line past
the last one. -/
theorem exists_replayLines_iff {edits : List Edit} {n : Nat} {ls : List Bytes} :
    (∃ outs, replayLines edits n ls = .ok outs) ↔ (∀ e ∈ edits, e.line < n + ls.length) ∧
      ∀ (i : Nat) (line : Bytes), ls[i]? = some line →
        ∃ out, replay 0 0 (edits.filter (·.line == n + i)) line = .ok out := by
  induction ls generalizing n with
  | nil => simp [replayLines_nil_ok_iff]
  | cons line rest ih =>
    have step : (∃ outs, replayLines edits n (line :: rest) = .ok outs) ↔
        (∃ out, replay 0 0 (edits.filter (·.line == n)) line = .ok out) ∧
          ∃ more, replayLines edits (n + 1) rest = .ok more := by
      constructor
      · rintro ⟨outs, ok⟩
        obtain ⟨out, more, first, others, -⟩ := replayLines_cons_ok_iff.1 ok
        exact ⟨⟨out, first⟩, more, others⟩
      · rintro ⟨⟨out, first⟩, more, others⟩
        exact ⟨_, replayLines_cons_ok_iff.2 ⟨out, more, first, others, rfl⟩⟩
    have length : n + 1 + rest.length = n + (line :: rest).length := by
      rw [List.length_cons]
      omega
    rw [step, ih, length]
    constructor
    · rintro ⟨first, bounds, others⟩
      refine ⟨bounds, fun i l here => ?_⟩
      cases i with
      | zero =>
        cases here
        exact first
      | succ i =>
        rw [show n + (i + 1) = n + 1 + i by omega]
        exact others i l here
    · rintro ⟨bounds, each⟩
      refine ⟨each 0 line rfl, bounds, fun i l here => ?_⟩
      rw [show n + 1 + i = n + (i + 1) by omega]
      exact each (i + 1) l here

/-- Where an edit inserts at the end of its line, the edits before it have forged no terminator. -/
def EndFree (edits : List Edit) (content : Bytes) (e : Edit) : Prop :=
  ∀ line, (lines content)[e.line - 1]? = some line → e.column = contentLength line + 1 →
    ¬ Forges (substituteFrom (upTo (edits.filter (·.line == e.line)) e.column) 0 (body line)) (terminator line)

section Accepted

variable {edits : List Edit} {content : Bytes}

/-- The edits of one line, once sorted, are accepted when none of them meets a forged terminator. -/
theorem replay_sorted_iff (inside : ∀ e ∈ edits, e.LiesIn content) (apart : edits.Pairwise Apart) {i : Nat}
    {line : Bytes} (here : (lines content)[i]? = some line) :
    (∃ out, replay 0 0 ((edits.mergeSort precedes).filter (·.line == 1 + i)) line = .ok out) ↔
      ∀ e ∈ edits, e.line = i + 1 → EndFree edits content e := by
  have perm := List.mergeSort_perm edits precedes
  have distinct : (edits.map key).Nodup :=
    (misplaced?_eq_none_iff.1 (misplaced?_eq_none_of_apart inside apart)).2
  have sortedKeys := (perm.map key).nodup_iff.2 distinct
  have columns : ((edits.mergeSort precedes).filter (·.line == 1 + i)).Pairwise fun a b => a.column ≤ b.column :=
    sorted_filter_line (pairwise_mergeSort_precedes edits) _
  have before := pairwise_before_of_sorted (pairwise_mergeSort_precedes edits)
    ((perm.pairwise_iff Apart.symm).2 apart) (1 + i)
  have ordered : ((edits.mergeSort precedes).filter (·.line == 1 + i)).Pairwise fun a b =>
      a.column < b.column ∧ a.Before b := by
    refine ((columns.and (List.pairwise_map.1 (nodup_columns sortedKeys (1 + i)))).and before).imp ?_
    rintro a b ⟨⟨le, ne⟩, before⟩
    exact ⟨Nat.lt_of_le_of_ne le ne, before⟩
  have mem : ∀ e, e ∈ (edits.mergeSort precedes).filter (·.line == 1 + i) ↔ e ∈ edits ∧ e.line = i + 1 := by
    intro e
    rw [List.mem_filter, List.mem_mergeSort, beq_iff_eq, Nat.add_comm]
  have lies : ∀ e ∈ (edits.mergeSort precedes).filter (·.line == 1 + i), 0 < e.column ∧
      e.column - 1 + e.length ≤ contentLength line := by
    intro e he
    obtain ⟨he, hl⟩ := (mem e).1 he
    obtain ⟨-, hc, l, hline, fits⟩ := inside e he
    rw [hl, Nat.add_sub_cancel, here] at hline
    cases hline
    exact ⟨hc, fits⟩
  have same : ∀ c, substituteFrom (upTo ((edits.mergeSort precedes).filter (·.line == 1 + i)) c) 0 (body line) =
      substituteFrom (upTo (edits.filter (·.line == i + 1)) c) 0 (body line) := by
    intro c
    rw [Nat.add_comm i 1]
    refine substituteFrom_perm ((perm.filter _).filter _) ?_ 0 (body line)
    exact (nodup_columns sortedKeys (1 + i)).sublist (List.filter_sublist.map column)
  rw [(Passed.start line).replay_ok_iff ordered lies]
  constructor
  · intro free e he hl l hline atEnd
    rw [hl, Nat.add_sub_cancel, here] at hline
    cases hline
    rw [hl, ← same]
    exact free e ((mem e).2 ⟨he, hl⟩) atEnd
  · intro free e he atEnd
    obtain ⟨he, hl⟩ := (mem e).1 he
    have end_free := free e he hl line (by rw [hl, Nat.add_sub_cancel, here]) atEnd
    rw [hl, ← same] at end_free
    exact end_free

/-- **When edits are accepted.** Edits are carried out exactly when they lie in the content, apart from
each other, and no insertion at the end of a line follows edits that forge a terminator there. -/
theorem applyAll_accepts_iff : (∃ out, applyAll edits content = .ok out) ↔
    (∀ e ∈ edits, e.LiesIn content) ∧ edits.Pairwise Apart ∧ ∀ e ∈ edits, EndFree edits content e := by
  by_cases fits : (∀ e ∈ edits, e.LiesIn content) ∧ edits.Pairwise Apart
  · obtain ⟨inside, apart⟩ := fits
    have placed := misplaced?_eq_none_of_apart inside apart
    have lineOf : ∀ e ∈ edits, ∃ i line, (lines content)[i]? = some line ∧ e.line = i + 1 := by
      intro e he
      obtain ⟨hl, -, line, hline, -⟩ := inside e he
      exact ⟨e.line - 1, line, hline, by omega⟩
    have bounds : ∀ e ∈ edits.mergeSort precedes, e.line < 1 + (lines content).length := by
      intro e he
      obtain ⟨i, line, hline, hl⟩ := lineOf e (List.mem_mergeSort.1 he)
      have := (List.getElem?_eq_some_iff.1 hline).1
      omega
    have replays : (∃ out, applyAll edits content = .ok out) ↔
        ∃ outs, replayLines (edits.mergeSort precedes) 1 (lines content) = .ok outs := by
      constructor
      · rintro ⟨out, ok⟩
        obtain ⟨-, outs, ok, -⟩ := applyAll_ok_iff.1 ok
        exact ⟨outs, ok⟩
      · rintro ⟨outs, ok⟩
        exact ⟨_, applyAll_ok_iff.2 ⟨placed, outs, ok, rfl⟩⟩
    rw [replays, exists_replayLines_iff, and_iff_right bounds, and_iff_right inside, and_iff_right apart]
    constructor
    · intro each e he
      obtain ⟨i, line, hline, hl⟩ := lineOf e he
      exact (replay_sorted_iff inside apart hline).1 (each i line hline) e he hl
    · intro free i line hline
      exact (replay_sorted_iff inside apart hline).2 fun e he _ => free e he
  · refine iff_of_false ?_ fun h => fits ⟨h.1, h.2.1⟩
    rintro ⟨out, ok⟩
    exact fits ⟨liesIn_of_applyAll ok, apart_of_applyAll ok⟩

end Accepted

/-- A deletion brings a carriage return in front of the line feed, and an insertion behind the deleted
byte, at the end of the line's content, is refused. -/
theorem applyAll_refuses_forged :
    let content := Utf8.encode "a\rb\n"
    let edits : List Edit := [⟨1, 3, 1, "", .high⟩, ⟨1, 4, 0, "c", .high⟩]
    (∀ e ∈ edits, e.LiesIn content) ∧ edits.Pairwise Apart ∧
      applyAll edits content = .error ⟨.outOfBounds, ⟨1, 4⟩⟩ := by
  have line : (lines (Utf8.encode "a\rb\n"))[0]? = some (Utf8.encode "a\rb\n") := by decide
  refine ⟨?_, ?_, by cbv⟩
  · intro e he
    rcases List.mem_pair.1 he with rfl | rfl
    · exact ⟨by decide, by decide, _, line, by decide⟩
    · exact ⟨by decide, by decide, _, line, by decide⟩
  · refine List.pairwise_pair.2 fun _ => ?_
    exact ⟨by decide, .inl (Nat.le_refl 4)⟩

end PhpRename.Edit
