import Mathlib
import PhpRename.Proofs.Text.Utf8
import PhpRename.Proofs.Token.Position

/-!
# Places in lossily read text

Lossy reading shows an ill-formed stretch of one to three bytes as a character of three. Going
through the shown text leads to the right line, and to a column that is too far by the `drift`: what
the shown characters since the last line feed are longer than their bytes.
-/

set_option autoImplicit false

namespace PhpRename.Utf8

/-! ## Pieces and line feeds -/

theorem lineFeed_notMem_encode {c : Char} (h : c ≠ '\n') : 0x0a ∉ String.utf8EncodeChar c := by
  intro mem
  have same : c.toNat = '\n'.toNat := eq_of_mem_encode (by decide) mem
  exact h (Char.toNat_inj.1 same)

namespace Piece

variable {p : Piece}

/-- By how many bytes the shown character of a piece is longer than the piece. -/
def excess (p : Piece) : Nat :=
  match p.char? with
  | some _ => 0
  | none => 3 - p.bytes.length

theorem IsPiece.length_shown (h : p.IsPiece) :
    (String.utf8EncodeChar p.shown).length = p.bytes.length + p.excess := by
  cases h with
  | char c => rfl
  | @stray lead tail h =>
    have shown : (String.utf8EncodeChar replacement).length = 3 := by decide
    have short := h.short
    simp only [Piece.shown, excess, Option.getD_none, shown, List.length_cons]
    omega

theorem IsPiece.bytes_lineFeed (h : p.IsPiece) (feed : p.shown = '\n') : p.bytes = [0x0a] := by
  cases h with
  | char c =>
    obtain rfl : c = '\n' := feed
    decide
  | stray h =>
    have other : replacement ≠ '\n' := by decide
    exact absurd feed other

theorem IsPiece.lineFeed_notMem (h : p.IsPiece) (no : p.shown ≠ '\n') : 0x0a ∉ p.bytes := by
  cases h with
  | char c => exact lineFeed_notMem_encode no
  | @stray lead tail h =>
    intro mem
    have high := h.high
    rcases List.mem_cons.1 mem with rfl | mem
    · exact absurd high (by decide)
    · exact absurd (h.continues _ mem) (by decide)

end Piece

/-! ## Drift -/

/-- By how many bytes the text shown for pieces runs ahead of them since the last line feed. -/
def drift (ps : List Piece) : Nat := ((ps.reverse.takeWhile (·.shown != '\n')).map Piece.excess).sum

theorem drift_append_lineFeed (ps : List Piece) {p : Piece} (feed : p.shown = '\n') : drift (ps ++ [p]) = 0 := by
  simp [drift, feed]

theorem drift_append (ps : List Piece) {p : Piece} (no : p.shown ≠ '\n') : drift (ps ++ [p]) = p.excess + drift ps := by
  simp [drift, no]

theorem drift_eq_zero_of_char {ps : List Piece} (chars : ∀ p ∈ ps, p.char? ≠ none) : drift ps = 0 := by
  refine List.sum_eq_zero_iff_forall_eq_nat.2 fun n hn => ?_
  obtain ⟨p, hp, rfl⟩ := List.mem_map.1 hn
  have mem : p ∈ ps := List.mem_reverse.1 ((List.takeWhile_sublist _).subset hp)
  rw [Piece.excess]
  split
  · rfl
  next none => exact absurd none (chars p mem)

/-- The shown text leads to the line of the bytes and to a column that is too far by the drift. -/
theorem after_shown (start : Position) (ps : List Piece) (each : ∀ p ∈ ps, p.IsPiece) :
    start.after (encodeChars (ps.map Piece.shown)) =
      ⟨(start.after (ps.flatMap Piece.bytes)).line, (start.after (ps.flatMap Piece.bytes)).column + drift ps⟩ := by
  -- a column depends on what follows the last line feed, so the pieces are taken from the right
  obtain ⟨qs, rfl⟩ : ∃ qs, ps = qs.reverse := ⟨ps.reverse, by simp⟩
  induction qs with
  | nil => rfl
  | cons p qs ih =>
    have piece := each p (by simp)
    have before := ih fun q hq => each q (by simp [List.mem_reverse.1 hq])
    rw [List.reverse_cons, List.map_append, encodeChars_append, Position.after_append, before, List.flatMap_append,
      Position.after_append, List.flatMap_singleton]
    rw [List.map_singleton, encodeChars_cons, show encodeChars [] = [] from rfl, List.append_nil]
    generalize start.after (qs.reverse.flatMap Piece.bytes) = at_
    by_cases feed : p.shown = '\n'
    · have enc : String.utf8EncodeChar '\n' = [0x0a] := by decide
      rw [drift_append_lineFeed _ feed, feed, piece.bytes_lineFeed feed, enc]
      rfl
    · rw [drift_append _ feed, Position.after_of_notMem _ (lineFeed_notMem_encode feed),
        Position.after_of_notMem _ (piece.lineFeed_notMem feed), piece.length_shown]
      simp only [Position.mk.injEq, true_and]
      omega

/-! ## Pieces of a part -/

/-- The pieces from some place on are the pieces of what is left there. -/
theorem cut_flatMap_of_append {bs : Bytes} {ps qs : List Piece} (h : cut bs = ps ++ qs) :
    cut (qs.flatMap Piece.bytes) = qs := by
  induction ps generalizing bs with
  | nil =>
    rw [List.nil_append] at h
    rw [← h, flatMap_cut]
  | cons p ps ih =>
    cases bs with
    | nil => simp [cut] at h
    | cons lead rest =>
      rw [cut, List.cons_append, List.cons.injEq] at h
      exact ih h.2

/-- A character at the start of a part that ends between characters is its first piece. -/
theorem eq_ofChar_of_encode {init xs rest : Bytes} {c : Char} {p : Piece} {qs : List Piece} (h : cut xs = p :: qs)
    (meet : Meet (init ++ xs) rest) (encoded : String.utf8EncodeChar c <+: xs ++ rest) : p = .ofChar c := by
  obtain ⟨r, split⟩ := encoded
  have whole : ∀ a, xs = String.utf8EncodeChar c ++ a → p = .ofChar c := by
    rintro a rfl
    rw [cut_encode_append, List.cons.injEq] at h
    exact h.1.symm
  rcases List.append_eq_append_iff.1 split with ⟨a, hx, -⟩ | ⟨b, hc, hr⟩
  · exact whole a hx
  cases b with
  | nil => exact whole [] (by rw [hc, List.append_nil, List.append_nil])
  | cons y ys =>
    -- the character would go on behind the end of the part, where no character goes on
    cases xs with
    | nil => simp [cut] at h
    | cons x xs =>
      have spelled := spells_encode c
      rw [hc, List.cons_append] at spelled
      have continues : isContinuation y = true := spelled.continues y (by simp)
      cases meet with
      | atEnd none => simp [none] at hr
      | beforeLead next lead =>
        rw [next] at hr
        rw [(List.cons.inj hr).1, continues] at lead
        cases lead
      | @afterAscii _ b last ascii =>
        have mem : b ∈ x :: xs := by
          have := congrArg List.getLast? last
          rw [List.getLast?_append, List.getLast?_concat, List.getLast?_cons] at this
          exact List.mem_of_getLast? (by rw [List.getLast?_cons]; exact this)
        have low : c.toNat = b.toNat := eq_of_mem_encode ascii (by rw [hc]; exact List.mem_append_left _ mem)
        rw [encode_one (by omega)] at hc
        simp at hc

/-- Pieces at whose place a text is encoded are its characters. -/
theorem eq_map_ofChar_of_encode {init rest : Bytes} {found after : List Piece} {cs : List Char}
    (h : cut ((found ++ after).flatMap Piece.bytes) = found ++ after)
    (meet : Meet (init ++ (found ++ after).flatMap Piece.bytes) rest) (length : found.length = cs.length)
    (encoded : encodeChars cs <+: (found ++ after).flatMap Piece.bytes ++ rest) : found = cs.map .ofChar := by
  induction found generalizing init cs with
  | nil =>
    rw [List.length_nil] at length
    rw [List.eq_nil_of_length_eq_zero length.symm]
    rfl
  | cons p found ih =>
    cases cs with
    | nil => cases length
    | cons c cs =>
      have first : p = .ofChar c := eq_ofChar_of_encode h meet ((List.prefix_append _ _).trans encoded)
      rw [List.cons_append, List.flatMap_cons] at h meet encoded
      have left : cut (p.bytes ++ (found ++ after).flatMap Piece.bytes) = [p] ++ (found ++ after) := h
      rw [← List.append_assoc] at meet
      rw [first, encodeChars_cons, List.append_assoc] at encoded
      have others := ih (cut_flatMap_of_append left) meet (Nat.succ.inj length)
        ((List.prefix_append_right_inj _).1 encoded)
      rw [first, others, List.map_cons]

end PhpRename.Utf8
