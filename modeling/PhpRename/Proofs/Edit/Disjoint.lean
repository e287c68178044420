import PhpRename.Proofs.Edit.Substitution

/-!
# Edits that lie apart are carried out

Edits that lie in a content, apart from each other, are refused only when a replacement makes the
content of its line shorter than it should be: at the end of a line its last byte may come to read
as a part of the terminator, and so may the byte before an empty one. Where every replacement is
firm the replay knows the length of the changing line exactly, and accepts every edit.
-/

set_option autoImplicit false

namespace PhpRename.Edit

/-! ## Firm replacements -/

/-- Bytes that end in one that belongs to no line terminator. -/
def Firm (bs : Bytes) : Prop := ∃ b, bs.getLast? = some b ∧ b ≠ 0x0a ∧ b ≠ 0x0d

theorem Firm.append_left {ys : Bytes} (h : Firm ys) (xs : Bytes) : Firm (xs ++ ys) := by
  obtain ⟨b, last, rest⟩ := h
  refine ⟨b, ?_, rest⟩
  rw [List.getLast?_append, last]
  rfl

theorem contentLength_of_getLast?_ne {xs : Bytes} (h : xs.getLast? ≠ some 0x0a) :
    contentLength xs = xs.length := by
  obtain ⟨-, len⟩ | ⟨c, rfl, -, -⟩ | ⟨c, rfl, -⟩ := contentLength_cases xs
  · exact len
  · simp at h
  · simp at h

theorem contentLength_append_lineFeed {xs : Bytes} (h : xs.getLast? ≠ some 0x0d) :
    contentLength (xs ++ [0x0a]) = xs.length := by
  obtain ⟨no, -⟩ | ⟨c, hc, -, len⟩ | ⟨c, hc, len⟩ := contentLength_cases (xs ++ [0x0a])
  · simp at no
  · rw [len, (List.append_inj' hc rfl).1]
  · have hx : xs ++ [0x0a] = (c ++ [0x0d]) ++ [0x0a] := by simpa using hc
    rw [(List.append_inj' hx rfl).1] at h
    simp at h

/-- The terminator of a line stays its terminator behind bytes that are firm or end as the line's
own content does. -/
theorem contentLength_append_terminator {line xs : Bytes}
    (h : xs.getLast? = (body line).getLast? ∨ Firm xs) : contentLength (xs ++ terminator line) = xs.length := by
  have keeps : ∀ b : UInt8, b = 0x0a ∨ b = 0x0d → (body line).getLast? ≠ some b → xs.getLast? ≠ some b := by
    intro b hb no
    obtain same | ⟨last, hl, feed, ret⟩ := h
    · rw [same]
      exact no
    · rw [hl]
      intro he
      cases he
      rcases hb with rfl | rfl
      · exact feed rfl
      · exact ret rfl
  obtain ⟨no, len⟩ | ⟨c, rfl, no, len⟩ | ⟨c, rfl, len⟩ := contentLength_cases line
  · have whole : body line = line := by rw [body, len, List.take_length]
    rw [whole] at keeps
    rw [terminator, len, List.drop_length, List.append_nil]
    exact contentLength_of_getLast?_ne (keeps 0x0a (.inl rfl) no)
  · have whole : body (c ++ [0x0a]) = c := by rw [body, len, List.take_left]
    rw [whole] at keeps
    rw [terminator, len, List.drop_left]
    exact contentLength_append_lineFeed (keeps 0x0d (.inr rfl) no)
  · rw [terminator, len, List.drop_left]
    exact contentLength_append_return xs

/-! ## The replay of a line -/

section Passed

variable {line done now : Bytes} {p : Nat} {offset written : Int}

/-- With firm bytes written so far the content of the changing line has its exact length. -/
theorem Passed.contentLength_eq (h : Passed line p done offset written now)
    (firm : done = [] ∧ p = 0 ∨ Firm done) : contentLength now + p = done.length + contentLength line := by
  have ends : (done ++ (body line).drop p).getLast? = (body line).getLast? ∨ Firm (done ++ (body line).drop p) := by
    obtain ⟨rfl, rfl⟩ | firm := firm
    · exact .inl rfl
    by_cases passed : (body line).length ≤ p
    · right
      rw [List.drop_eq_nil_of_le passed, List.append_nil]
      exact firm
    · left
      have some : (body line).getLast? ≠ none := by
        intro none
        rw [List.getLast?_eq_none_iff.1 none] at passed
        exact passed (Nat.zero_le p)
      rw [List.getLast?_append, List.getLast?_drop, if_neg passed]
      exact Option.or_of_isSome (Option.isSome_iff_ne_none.2 some)
  have len := contentLength_append_terminator ends
  have bound := h.bound
  rw [← h.shape, List.length_append, List.length_drop, length_body] at len
  omega

/-- An edit behind what has been passed is accepted when it ends in the original content. -/
theorem Passed.accepts (h : Passed line p done offset written now) (firm : done = [] ∧ p = 0 ∨ Firm done)
    {e : Edit} (behind : p < e.column) (inside : e.column - 1 + e.length ≤ contentLength line) :
    written < e.column + offset ∧ ((e.column : Int) + offset - 1).toNat + e.length ≤ contentLength now := by
  have len := h.contentLength_eq firm
  have ho := h.offset
  have hw := h.written
  constructor <;> omega

/-- The replay accepts edits in order whose replacements are firm. -/
theorem Passed.exists_replay {edits : List Edit} (h : Passed line p done offset written now)
    (firm : done = [] ∧ p = 0 ∨ Firm done) (ordered : edits.Pairwise Before) (firms : ∀ e ∈ edits, Firm e.bytes)
    (inside : ∀ e ∈ edits, p < e.column ∧ e.column - 1 + e.length ≤ contentLength line) :
    ∃ out, replay offset written edits now = .ok out := by
  induction edits generalizing p done offset written now with
  | nil => exact ⟨now, rfl⟩
  | cons e edits ih =>
    obtain ⟨behind, fits⟩ := inside e (by simp)
    obtain ⟨free, room⟩ := h.accepts firm behind fits
    obtain ⟨-, -, next⟩ := h.step free room
    obtain ⟨later, ordered⟩ := List.pairwise_cons.1 ordered
    have after : ∀ a ∈ edits, e.column - 1 + e.length < a.column ∧ a.column - 1 + a.length ≤ contentLength line := by
      intro a ha
      have := later a ha
      simp only [Before] at this
      have := (inside a (by simp [ha])).2
      omega
    have firmNext := ((firms e (by simp)).append_left (((body line).drop p).take (e.column - 1 - p))).append_left done
    obtain ⟨out, ok⟩ := ih next (.inr firmNext) ordered (fun a ha => firms a (by simp [ha])) after
    exact ⟨out, replay_cons_ok_iff.2 ⟨free, room, ok⟩⟩

end Passed

/-! ## All lines -/

/-- The replay of all lines accepts edits that lie in their lines, those of each line in order. -/
theorem exists_replayLines {edits : List Edit} (firms : ∀ e ∈ edits, Firm e.bytes) {n : Nat} {ls : List Bytes}
    (inside : ∀ e ∈ edits, n ≤ e.line → 1 ≤ e.column ∧
      ∃ line, ls[e.line - n]? = some line ∧ e.column - 1 + e.length ≤ contentLength line)
    (ordered : ∀ m, (edits.filter (·.line == m)).Pairwise Before) :
    ∃ outs, replayLines edits n ls = .ok outs := by
  induction ls generalizing n with
  | nil =>
    refine ⟨[], replayLines_nil_ok_iff.2 ⟨fun e he => ?_, rfl⟩⟩
    apply Nat.lt_of_not_le
    intro hn
    obtain ⟨-, line, hline, -⟩ := inside e he hn
    simp at hline
  | cons line rest ih =>
    have here : ∀ e ∈ edits.filter (·.line == n), 0 < e.column ∧ e.column - 1 + e.length ≤ contentLength line := by
      intro e he
      obtain ⟨he, hn⟩ := List.mem_filter.1 he
      have hn : e.line = n := by simpa using hn
      obtain ⟨hc, l, hl, fits⟩ := inside e he (Nat.le_of_eq hn.symm)
      rw [hn, Nat.sub_self, List.getElem?_cons_zero] at hl
      cases hl
      exact ⟨hc, fits⟩
    have below : ∀ e ∈ edits, n + 1 ≤ e.line → 1 ≤ e.column ∧
        ∃ l, rest[e.line - (n + 1)]? = some l ∧ e.column - 1 + e.length ≤ contentLength l := by
      intro e he hn
      obtain ⟨hc, l, hl, fits⟩ := inside e he (by omega)
      rw [show e.line - n = e.line - (n + 1) + 1 by omega, List.getElem?_cons_succ] at hl
      exact ⟨hc, l, hl, fits⟩
    obtain ⟨out, first⟩ := (Passed.start line).exists_replay (.inl ⟨rfl, rfl⟩) (ordered n)
      (fun e he => firms e (List.mem_filter.1 he).1) here
    obtain ⟨more, others⟩ := ih below
    exact ⟨out :: more, replayLines_cons_ok_iff.2 ⟨out, more, first, others, rfl⟩⟩

/-- Edits of one line that lie apart are in order once they are sorted. -/
theorem pairwise_before_of_sorted {edits : List Edit} (sorted : edits.Pairwise fun a b => a.precedes b = true)
    (apart : edits.Pairwise Apart) (n : Nat) : (edits.filter (·.line == n)).Pairwise Before := by
  rw [List.pairwise_filter]
  refine (sorted.and apart).imp fun {a b} h ha hb => ?_
  obtain ⟨le, apart⟩ := h
  simp only [precedes, beq_iff_eq, Bool.or_eq_true, Bool.and_eq_true, decide_eq_true_eq] at le ha hb
  obtain ⟨ne, before | after⟩ := apart (ha.trans hb.symm)
  · exact before
  · simp only [Before] at after ⊢
    omega

/-- Edits that lie in a content, apart from each other, are placed well. -/
theorem misplaced?_eq_none_of_apart {edits : List Edit} {content : Bytes} (inside : ∀ e ∈ edits, e.LiesIn content)
    (apart : edits.Pairwise Apart) : misplaced? [] edits = none := by
  refine misplaced?_eq_none_iff.2 ⟨fun e he => ⟨by simp, (inside e he).1, (inside e he).2.1⟩, ?_⟩
  refine List.pairwise_map.2 (apart.imp fun {a b} h hk => ?_)
  simp only [key, Position.mk.injEq] at hk
  exact (h hk.1).1 hk.2

/-- Edits that lie in a content, apart from each other and with firm replacements, are carried
out at once. -/
theorem applyAll_eq_substitute {edits : List Edit} {content : Bytes} (inside : ∀ e ∈ edits, e.LiesIn content)
    (apart : edits.Pairwise Apart) (firms : ∀ e ∈ edits, Firm e.bytes) :
    applyAll edits content = .ok (substitute edits content) := by
  have placed := misplaced?_eq_none_of_apart inside apart
  have perm := List.mergeSort_perm edits precedes
  have ordered := pairwise_before_of_sorted (pairwise_mergeSort_precedes edits)
    ((perm.pairwise_iff Apart.symm).2 apart)
  have lies : ∀ e ∈ edits.mergeSort precedes, 1 ≤ e.line → 1 ≤ e.column ∧
      ∃ line, (lines content)[e.line - 1]? = some line ∧ e.column - 1 + e.length ≤ contentLength line :=
    fun e he _ => (inside e (perm.mem_iff.1 he)).2
  obtain ⟨outs, ok⟩ := exists_replayLines (fun e he => firms e (perm.mem_iff.1 he)) lies ordered
  have applied := applyAll_ok_iff.2 ⟨placed, outs, ok, rfl⟩
  rw [applied, eq_substitute_of_applyAll applied]

end PhpRename.Edit
