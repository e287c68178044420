import PhpRename.Text.Utf8

/-!
# UTF-8, both ways

`Spells` is the grammar of one character, `Stray` the shape of an ill-formed stretch, and `found`
says that reading one piece finds one or the other. `cut` keeps the bytes of every piece, so that
lossy reading can be compared with what it read: pieces that are characters are their own encoding
(`flatMap_bytes_of_char`), and a well-formed byte string is read without loss
(`Valid.encode_decodeLossy`). A well-formed byte string may be split wherever its parts `Meet`
(`Valid.split`).
-/

set_option autoImplicit false

namespace PhpRename.Utf8

theorem toNat_charOfNat {n : Nat} (h : n.isValidChar) : (Char.ofNat n).toNat = n := by
  rw [Char.ofNat, dif_pos h]
  rfl

/-! ## Characters as bytes -/

section Encode

variable {c : Char}

theorem encode_one (h : c.toNat < 0x80) : String.utf8EncodeChar c = [UInt8.ofNat c.toNat] := by
  have h1 : c.val.toNat ≤ 0x7f := Nat.le_of_lt_succ h
  rw [String.utf8EncodeChar, if_pos h1]
  rfl

theorem encode_two (lo : 0x80 ≤ c.toNat) (hi : c.toNat < 0x800) :
    String.utf8EncodeChar c = [UInt8.ofNat (c.toNat / 64 + 0xc0), UInt8.ofNat (c.toNat % 64 + 0x80)] := by
  have h1 : ¬ c.val.toNat ≤ 0x7f := Nat.not_le.2 lo
  have h2 : c.val.toNat ≤ 0x7ff := Nat.le_of_lt_succ hi
  rw [String.utf8EncodeChar, if_neg h1, if_pos h2]
  rw [Char.toNat_val, show c.toNat / 64 % 0x20 = c.toNat / 64 by omega]

theorem encode_three (lo : 0x800 ≤ c.toNat) (hi : c.toNat < 0x10000) :
    String.utf8EncodeChar c = [UInt8.ofNat (c.toNat / 4096 + 0xe0),
      UInt8.ofNat (c.toNat / 64 % 64 + 0x80), UInt8.ofNat (c.toNat % 64 + 0x80)] := by
  have h1 : ¬ c.val.toNat ≤ 0x7f := by rw [Char.toNat_val]; omega
  have h2 : ¬ c.val.toNat ≤ 0x7ff := Nat.not_le.2 lo
  have h3 : c.val.toNat ≤ 0xffff := Nat.le_of_lt_succ hi
  rw [String.utf8EncodeChar, if_neg h1, if_neg h2, if_pos h3]
  rw [Char.toNat_val, show c.toNat / 4096 % 0x10 = c.toNat / 4096 by omega]

theorem encode_four (lo : 0x10000 ≤ c.toNat) (hi : c.toNat < 0x110000) :
    String.utf8EncodeChar c = [UInt8.ofNat (c.toNat / 262144 + 0xf0),
      UInt8.ofNat (c.toNat / 4096 % 64 + 0x80), UInt8.ofNat (c.toNat / 64 % 64 + 0x80),
      UInt8.ofNat (c.toNat % 64 + 0x80)] := by
  have h1 : ¬ c.val.toNat ≤ 0x7f := by rw [Char.toNat_val]; omega
  have h2 : ¬ c.val.toNat ≤ 0x7ff := by rw [Char.toNat_val]; omega
  have h3 : ¬ c.val.toNat ≤ 0xffff := Nat.not_le.2 lo
  rw [String.utf8EncodeChar, if_neg h1, if_neg h2, if_neg h3]
  rw [Char.toNat_val, show c.toNat / 262144 % 0x08 = c.toNat / 262144 by omega]

end Encode

/-- The code points of characters. -/
theorem char_range (c : Char) : c.toNat < 0xd800 ∨ 0xe000 ≤ c.toNat ∧ c.toNat < 0x110000 := c.valid

/-! ## Reading one piece -/

theorem isContinuation_iff {b : UInt8} : isContinuation b = true ↔ 0x80 ≤ b.toNat ∧ b.toNat < 0xc0 := by
  simp only [isContinuation, Bool.and_eq_true, decide_eq_true_eq, UInt8.le_iff_toNat_le]
  change 0x80 ≤ b.toNat ∧ b.toNat ≤ 0xbf ↔ _
  omega

theorem trailing?_eq (lead : UInt8) : trailing? lead =
    if lead.toNat < 0x80 then some 0 else if lead.toNat < 0xc2 then none
    else if lead.toNat < 0xe0 then some 1 else if lead.toNat < 0xf0 then some 2
    else if lead.toNat < 0xf5 then some 3 else none := rfl

/-- The second bytes that may follow a leading byte. -/
theorem maySecond_iff {lead second : UInt8} : maySecond lead second = true ↔
    0x80 ≤ second.toNat ∧ second.toNat < 0xc0 ∧
      (lead.toNat = 0xe0 → 0xa0 ≤ second.toNat) ∧ (lead.toNat = 0xed → second.toNat < 0xa0) ∧
      (lead.toNat = 0xf0 → 0x90 ≤ second.toNat) ∧ (lead.toNat = 0xf4 → second.toNat < 0x90) := by
  have eqv : ∀ n : Nat, n < 256 → ((lead == UInt8.ofNat n) = true ↔ lead.toNat = n) := by
    intro n hn
    rw [beq_iff_eq, ← UInt8.toNat_inj, UInt8.toNat_ofNat_of_lt' hn]
  have e0 := eqv 0xe0 (by omega)
  have ed := eqv 0xed (by omega)
  have f0 := eqv 0xf0 (by omega)
  have f4 := eqv 0xf4 (by omega)
  unfold maySecond
  change (if (lead == UInt8.ofNat 0xe0) = true then _ else if (lead == UInt8.ofNat 0xed) = true then _
    else if (lead == UInt8.ofNat 0xf0) = true then _ else if (lead == UInt8.ofNat 0xf4) = true then _ else _) = true ↔ _
  simp only [e0, ed, f0, f4]
  split
  · simp only [Bool.and_eq_true, decide_eq_true_eq, UInt8.le_iff_toNat_le]
    change 0xa0 ≤ second.toNat ∧ second.toNat ≤ 0xbf ↔ _
    omega
  split
  · simp only [Bool.and_eq_true, decide_eq_true_eq, UInt8.le_iff_toNat_le]
    change 0x80 ≤ second.toNat ∧ second.toNat ≤ 0x9f ↔ _
    omega
  split
  · simp only [Bool.and_eq_true, decide_eq_true_eq, UInt8.le_iff_toNat_le]
    change 0x90 ≤ second.toNat ∧ second.toNat ≤ 0xbf ↔ _
    omega
  split
  · simp only [Bool.and_eq_true, decide_eq_true_eq, UInt8.le_iff_toNat_le]
    change 0x80 ≤ second.toNat ∧ second.toNat ≤ 0x8f ↔ _
    omega
  rw [isContinuation_iff]
  omega

/-- The byte strings that spell one character, with its code point. -/
inductive Spells : Bytes → Nat → Prop where
  | one {a : UInt8} (hi : a.toNat < 0x80) : Spells [a] a.toNat
  | two {a b : UInt8} (lo : 0xc2 ≤ a.toNat) (hi : a.toNat < 0xe0) (hb : maySecond a b = true) :
      Spells [a, b] (a.toNat % 0x20 * 0x40 + b.toNat % 0x40)
  | three {a b c : UInt8} (lo : 0xe0 ≤ a.toNat) (hi : a.toNat < 0xf0) (hb : maySecond a b = true)
      (hc : isContinuation c = true) :
      Spells [a, b, c] ((a.toNat % 0x10 * 0x40 + b.toNat % 0x40) * 0x40 + c.toNat % 0x40)
  | four {a b c d : UInt8} (lo : 0xf0 ≤ a.toNat) (hi : a.toNat < 0xf5) (hb : maySecond a b = true)
      (hc : isContinuation c = true) (hd : isContinuation d = true) :
      Spells [a, b, c, d]
        (((a.toNat % 0x08 * 0x40 + b.toNat % 0x40) * 0x40 + c.toNat % 0x40) * 0x40 + d.toNat % 0x40)

theorem eq_ofNat {b : UInt8} {n : Nat} (h : b.toNat = n) : UInt8.ofNat n = b := by
  rw [← h, UInt8.ofNat_toNat]

theorem toNat_ofNat {n : Nat} (h : n < 256) : (UInt8.ofNat n).toNat = n := UInt8.toNat_ofNat_of_lt' h

/-- What spells a code point is the encoding of its character. -/
theorem Spells.encode {bs : Bytes} {code : Nat} (h : Spells bs code) :
    String.utf8EncodeChar (Char.ofNat code) = bs := by
  cases h with
  | @one a hi =>
    have hv : (Char.ofNat a.toNat).toNat = a.toNat := toNat_charOfNat (.inl (by omega))
    rw [encode_one (by omega), hv, UInt8.ofNat_toNat]
  | @two a b lo hi hb =>
    have hm := maySecond_iff.1 hb
    generalize hn : a.toNat % 0x20 * 0x40 + b.toNat % 0x40 = n
    have hv : (Char.ofNat n).toNat = n := toNat_charOfNat (.inl (by omega))
    rw [encode_two (by omega) (by omega), hv, eq_ofNat (b := a) (by omega), eq_ofNat (b := b) (by omega)]
  | @three a b c lo hi hb hc =>
    have hm := maySecond_iff.1 hb
    have hc' := isContinuation_iff.1 hc
    generalize hn : (a.toNat % 0x10 * 0x40 + b.toNat % 0x40) * 0x40 + c.toNat % 0x40 = n
    have valid : n.isValidChar := by
      rcases Nat.lt_or_ge n 0xd800 with hlt | hge
      · exact .inl hlt
      · exact .inr ⟨by omega, by omega⟩
    have hv : (Char.ofNat n).toNat = n := toNat_charOfNat valid
    rw [encode_three (by omega) (by omega), hv, eq_ofNat (b := a) (by omega), eq_ofNat (b := b) (by omega),
      eq_ofNat (b := c) (by omega)]
  | @four a b c d lo hi hb hc hd =>
    have hm := maySecond_iff.1 hb
    have hc' := isContinuation_iff.1 hc
    have hd' := isContinuation_iff.1 hd
    generalize hn : ((a.toNat % 0x08 * 0x40 + b.toNat % 0x40) * 0x40 + c.toNat % 0x40) * 0x40 +
      d.toNat % 0x40 = n
    have hv : (Char.ofNat n).toNat = n := toNat_charOfNat (.inr ⟨by omega, by omega⟩)
    rw [encode_four (by omega) (by omega), hv, eq_ofNat (b := a) (by omega), eq_ofNat (b := b) (by omega),
      eq_ofNat (b := c) (by omega), eq_ofNat (b := d) (by omega)]

/-- The encoding of a character spells it. -/
theorem spells_encode (c : Char) : Spells (String.utf8EncodeChar c) c.toNat := by
  have range := char_range c
  by_cases h1 : c.toNat < 0x80
  · rw [encode_one h1]
    have ha := toNat_ofNat (n := c.toNat) (by omega)
    generalize UInt8.ofNat c.toNat = a at ha ⊢
    rw [← ha]
    exact .one (by omega)
  by_cases h2 : c.toNat < 0x800
  · rw [encode_two (by omega) h2]
    have ha := toNat_ofNat (n := c.toNat / 64 + 0xc0) (by omega)
    have hb := toNat_ofNat (n := c.toNat % 64 + 0x80) (by omega)
    generalize UInt8.ofNat (c.toNat / 64 + 0xc0) = a at ha ⊢
    generalize UInt8.ofNat (c.toNat % 64 + 0x80) = b at hb ⊢
    rw [show c.toNat = a.toNat % 0x20 * 0x40 + b.toNat % 0x40 by omega]
    exact .two (by omega) (by omega) (maySecond_iff.2 (by omega))
  by_cases h3 : c.toNat < 0x10000
  · rw [encode_three (by omega) h3]
    have ha := toNat_ofNat (n := c.toNat / 4096 + 0xe0) (by omega)
    have hb := toNat_ofNat (n := c.toNat / 64 % 64 + 0x80) (by omega)
    have hc := toNat_ofNat (n := c.toNat % 64 + 0x80) (by omega)
    generalize UInt8.ofNat (c.toNat / 4096 + 0xe0) = a at ha ⊢
    generalize UInt8.ofNat (c.toNat / 64 % 64 + 0x80) = b at hb ⊢
    generalize UInt8.ofNat (c.toNat % 64 + 0x80) = d at hc ⊢
    rw [show c.toNat = (a.toNat % 0x10 * 0x40 + b.toNat % 0x40) * 0x40 + d.toNat % 0x40 by omega]
    exact .three (by omega) (by omega) (maySecond_iff.2 (by omega)) (isContinuation_iff.2 (by omega))
  · rw [encode_four (by omega) (by omega)]
    have ha := toNat_ofNat (n := c.toNat / 262144 + 0xf0) (by omega)
    have hb := toNat_ofNat (n := c.toNat / 4096 % 64 + 0x80) (by omega)
    have hc := toNat_ofNat (n := c.toNat / 64 % 64 + 0x80) (by omega)
    have hd := toNat_ofNat (n := c.toNat % 64 + 0x80) (by omega)
    generalize UInt8.ofNat (c.toNat / 262144 + 0xf0) = a at ha ⊢
    generalize UInt8.ofNat (c.toNat / 4096 % 64 + 0x80) = b at hb ⊢
    generalize UInt8.ofNat (c.toNat / 64 % 64 + 0x80) = d at hc ⊢
    generalize UInt8.ofNat (c.toNat % 64 + 0x80) = e at hd ⊢
    rw [show c.toNat = ((a.toNat % 0x08 * 0x40 + b.toNat % 0x40) * 0x40 + d.toNat % 0x40) * 0x40 +
      e.toNat % 0x40 by omega]
    exact .four (by omega) (by omega) (maySecond_iff.2 (by omega)) (isContinuation_iff.2 (by omega))
      (isContinuation_iff.2 (by omega))

theorem isContinuation_of_maySecond {lead second : UInt8} (h : maySecond lead second = true) :
    isContinuation second = true := by
  have := maySecond_iff.1 h
  exact isContinuation_iff.2 ⟨this.1, this.2.1⟩

/-- A spelled character is read, whatever follows. -/
theorem Spells.next {lead : UInt8} {tail : Bytes} {code : Nat} (h : Spells (lead :: tail) code) (rest : Bytes) :
    next lead (tail ++ rest) = (some (Char.ofNat code), tail.length) := by
  cases h with
  | one hi =>
    have ht : trailing? lead = some 0 := by rw [trailing?_eq, if_pos hi]
    simp [Utf8.next, ht]
  | two lo hi hb =>
    have ht : trailing? lead = some 1 := by
      rw [trailing?_eq, if_neg (by omega), if_neg (by omega), if_pos hi]
    simp [Utf8.next, ht, hb, isContinuation_of_maySecond hb, continuation, leadBits]
  | three lo hi hb hc =>
    have ht : trailing? lead = some 2 := by
      rw [trailing?_eq, if_neg (by omega), if_neg (by omega), if_neg (by omega), if_pos hi]
    simp [Utf8.next, ht, hb, isContinuation_of_maySecond hb, hc, continuation, leadBits]
  | four lo hi hb hc hd =>
    have ht : trailing? lead = some 3 := by
      rw [trailing?_eq, if_neg (by omega), if_neg (by omega), if_neg (by omega), if_neg (by omega), if_pos hi]
    simp [Utf8.next, ht, hb, isContinuation_of_maySecond hb, hc, hd, continuation, leadBits]

/-- An ill-formed stretch: a byte outside ASCII and at most two continuation bytes. -/
structure Stray (lead : UInt8) (tail : Bytes) : Prop where
  high : 0x80 ≤ lead.toNat
  continues : ∀ b ∈ tail, isContinuation b = true
  short : tail.length ≤ 2

/-- What reading a piece finds at the start of `lead :: rest`: a spelled character, or an
ill-formed stretch. -/
inductive Found (lead : UInt8) (rest : Bytes) : Prop where
  | char {code : Nat} (tail after : Bytes) (cut : rest = tail ++ after) (spelled : Spells (lead :: tail) code)
      (read : next lead rest = (some (Char.ofNat code), tail.length))
  | stray (tail after : Bytes) (cut : rest = tail ++ after) (stray : Stray lead tail)
      (read : next lead rest = (none, tail.length))

theorem Found.ofSpells {lead : UInt8} {tail : Bytes} {code : Nat} (h : Spells (lead :: tail) code)
    (after : Bytes) : Found lead (tail ++ after) :=
  .char tail after rfl h (h.next after)

/-- Three and four byte characters are read up to the first byte that does not continue them. -/
theorem found (lead : UInt8) (rest : Bytes) : Found lead rest := by
  rcases Nat.lt_or_ge lead.toNat 0x80 with ascii | high
  · exact .ofSpells (.one ascii) rest
  by_cases low : lead.toNat < 0xc2
  · have ht : trailing? lead = none := by rw [trailing?_eq, if_neg (by omega), if_pos low]
    exact .stray [] _ rfl ⟨high, nofun, by simp⟩ (by simp [next, ht])
  by_cases past : 0xf5 ≤ lead.toNat
  · have ht : trailing? lead = none := by
      rw [trailing?_eq, if_neg (by omega), if_neg (by omega), if_neg (by omega), if_neg (by omega),
        if_neg (by omega)]
    exact .stray [] _ rfl ⟨high, nofun, by simp⟩ (by simp [next, ht])
  obtain ⟨n, ht⟩ : ∃ n, trailing? lead = some (n + 1) := by
    rw [trailing?_eq, if_neg (by omega), if_neg (by omega)]
    split
    · exact ⟨0, rfl⟩
    split
    · exact ⟨1, rfl⟩
    rw [if_pos (by omega)]
    exact ⟨2, rfl⟩
  match rest with
  | [] => exact .stray [] _ rfl ⟨high, nofun, by simp⟩ (by simp [next, ht])
  | second :: rest =>
    by_cases hb : maySecond lead second = true
    case neg => exact .stray [] _ rfl ⟨high, nofun, by simp⟩ (by simp [next, ht, hb])
    have hb' := isContinuation_of_maySecond hb
    by_cases two : lead.toNat < 0xe0
    · exact .ofSpells (.two (by omega) two hb) rest
    have three : n = 1 ∨ n = 2 := by
      rw [trailing?_eq, if_neg (by omega), if_neg (by omega), if_neg two] at ht
      split at ht
      · cases ht; exact .inl rfl
      · rw [if_pos (by omega)] at ht; cases ht; exact .inr rfl
    have one : Stray lead [second] := ⟨high, by simpa using hb', by simp⟩
    match rest with
    | [] =>
      refine .stray [second] _ rfl one ?_
      rcases three with rfl | rfl <;> simp [next, ht, hb, hb', continuation]
    | third :: rest =>
      by_cases hc : isContinuation third = true
      case neg =>
        refine .stray [second] _ rfl one ?_
        rcases three with rfl | rfl <;> simp [next, ht, hb, hb', hc, continuation]
      have both : Stray lead [second, third] := ⟨high, by simp [hb', hc], by simp⟩
      by_cases h3 : lead.toNat < 0xf0
      · exact .ofSpells (.three (by omega) h3 hb hc) rest
      obtain rfl : n = 2 := by
        rw [trailing?_eq, if_neg (by omega), if_neg (by omega), if_neg two, if_neg h3, if_pos (by omega)] at ht
        cases ht; rfl
      match rest with
      | [] =>
        refine .stray [second, third] _ rfl both ?_
        simp [next, ht, hb, hb', hc, continuation]
      | fourth :: rest =>
        by_cases hd : isContinuation fourth = true
        · exact .ofSpells (.four (by omega) (by omega) hb hc hd) rest
        · refine .stray [second, third] _ rfl both ?_
          simp [next, ht, hb, hb', hc, hd, continuation]

theorem Spells.continues {lead : UInt8} {tail : Bytes} {code : Nat} (h : Spells (lead :: tail) code) :
    ∀ b ∈ tail, isContinuation b = true := by
  cases h with
  | one hi => exact nofun
  | two lo hi hb => simp [isContinuation_of_maySecond hb]
  | three lo hi hb hc => simp [isContinuation_of_maySecond hb, hc]
  | four lo hi hb hc hd => simp [isContinuation_of_maySecond hb, hc, hd]

/-- Only a character of ASCII has a byte of ASCII. -/
theorem Spells.ascii {lead : UInt8} {tail : Bytes} {code : Nat} (h : Spells (lead :: tail) code)
    (ascii : lead.toNat < 0x80) : tail = [] ∧ code = lead.toNat := by
  cases h with
  | one hi => exact ⟨rfl, rfl⟩
  | two lo hi hb => omega
  | three lo hi hb hc => omega
  | four lo hi hb hc hd => omega

theorem exists_encode_cons (c : Char) : ∃ lead tail, String.utf8EncodeChar c = lead :: tail := by
  cases h : String.utf8EncodeChar c with
  | nil => exact absurd h String.utf8EncodeChar_ne_nil
  | cons lead tail => exact ⟨lead, tail, rfl⟩

/-- A byte of ASCII is the whole of its character. -/
theorem eq_of_mem_encode {b : UInt8} {c : Char} (ascii : b.toNat < 0x80) (h : b ∈ String.utf8EncodeChar c) :
    c.toNat = b.toNat := by
  obtain ⟨lead, tail, encoded⟩ := exists_encode_cons c
  have spelled := spells_encode c
  rw [encoded] at spelled h
  rcases List.mem_cons.1 h with rfl | h
  · exact (spelled.ascii ascii).2
  · have := isContinuation_iff.1 (spelled.continues b h)
    omega

/-! ## Cutting a byte string into pieces -/

/-- A piece of a byte string: its bytes, and the character that they spell if they do. -/
structure Piece where
  char? : Option Char
  bytes : Bytes
  deriving DecidableEq, Repr

namespace Piece

/-- The piece of a character. -/
def ofChar (c : Char) : Piece := ⟨some c, String.utf8EncodeChar c⟩

/-- The character that lossy reading shows for a piece. -/
def shown (p : Piece) : Char := p.char?.getD replacement

/-- What a piece can be: a spelled character, or an ill-formed stretch. -/
inductive IsPiece : Piece → Prop where
  | char (c : Char) : IsPiece (ofChar c)
  | stray {lead : UInt8} {tail : Bytes} (h : Stray lead tail) : IsPiece ⟨none, lead :: tail⟩

end Piece

/-- The pieces of a byte string, with their bytes. -/
def cut : Bytes → List Piece
  | [] => []
  | lead :: rest =>
    ⟨(next lead rest).1, lead :: rest.take (next lead rest).2⟩ :: cut (rest.drop (next lead rest).2)
termination_by bs => bs.length
decreasing_by simp only [List.length_drop, List.length_cons]; omega

theorem pieces_eq_cut (bs : Bytes) : pieces bs = (cut bs).map Piece.char? := by
  fun_induction cut bs with
  | case1 => simp [pieces]
  | case2 lead rest ih => rw [pieces, List.map_cons, ih]

theorem flatMap_cut (bs : Bytes) : (cut bs).flatMap Piece.bytes = bs := by
  fun_induction cut bs with
  | case1 => rfl
  | case2 lead rest ih => simp [ih]

/-- Where the pieces are split, so are the bytes. -/
theorem eq_append_of_cut {bs : Bytes} {ps qs : List Piece} (h : cut bs = ps ++ qs) :
    bs = ps.flatMap Piece.bytes ++ qs.flatMap Piece.bytes := by
  rw [← List.flatMap_append, ← h, flatMap_cut]

theorem decodeLossy_eq (bs : Bytes) : decodeLossy bs = String.ofList ((cut bs).map Piece.shown) := by
  rw [decodeLossy, pieces_eq_cut, List.map_map]
  rfl

theorem toList_decodeLossy (bs : Bytes) : (decodeLossy bs).toList = (cut bs).map Piece.shown := by
  rw [decodeLossy_eq, String.toList_ofList]

theorem isPiece_of_mem_cut {p : Piece} {bs : Bytes} (h : p ∈ cut bs) : p.IsPiece := by
  fun_induction cut bs with
  | case1 => cases h
  | case2 lead rest ih =>
    rcases List.mem_cons.1 h with rfl | h
    · cases found lead rest with
      | @char code tail after hcut spelled read =>
        have same : (⟨some (Char.ofNat code), lead :: tail⟩ : Piece) = .ofChar (Char.ofNat code) := by
          rw [Piece.ofChar, spelled.encode]
        rw [read, hcut, List.take_left, same]
        exact .char _
      | stray tail after hcut stray read =>
        rw [read, hcut, List.take_left]
        exact .stray stray
    · exact ih h

/-- A character is cut off its bytes, whatever follows. -/
theorem cut_encode_append (c : Char) (rest : Bytes) :
    cut (String.utf8EncodeChar c ++ rest) = .ofChar c :: cut rest := by
  obtain ⟨lead, tail, h⟩ := exists_encode_cons c
  have spelled := spells_encode c
  rw [h] at spelled
  have read := spelled.next rest
  rw [Char.ofNat_toNat] at read
  rw [h, List.cons_append, cut, read, List.take_left, List.drop_left, Piece.ofChar, h]

theorem cut_encodeChars_append (cs : List Char) (rest : Bytes) :
    cut (encodeChars cs ++ rest) = cs.map .ofChar ++ cut rest := by
  induction cs with
  | nil => rfl
  | cons c cs ih =>
    rw [encodeChars, List.flatMap_cons, List.append_assoc, cut_encode_append]
    exact congrArg (Piece.ofChar c :: ·) ih

theorem cut_encodeChars (cs : List Char) : cut (encodeChars cs) = cs.map .ofChar := by
  simpa [cut] using cut_encodeChars_append cs []

@[simp] theorem encodeChars_append (as bs : List Char) :
    encodeChars (as ++ bs) = encodeChars as ++ encodeChars bs := by
  simp [encodeChars]

@[simp] theorem encodeChars_cons (c : Char) (cs : List Char) :
    encodeChars (c :: cs) = String.utf8EncodeChar c ++ encodeChars cs := rfl

theorem encode_append (a b : String) : encode (a ++ b) = encode a ++ encode b := by
  rw [encode, encode, encode, String.toList_append, encodeChars_append]

/-! ## Well-formed byte strings -/

/-- A byte string is the encoding of some characters. -/
def Valid (bs : Bytes) : Prop := ∃ cs, bs = encodeChars cs

theorem valid_encode (s : String) : Valid (encode s) := ⟨s.toList, rfl⟩

/-- Pieces that are all characters spell them. -/
theorem flatMap_bytes_of_char {ps : List Piece} (each : ∀ p ∈ ps, p.IsPiece)
    (chars : ∀ p ∈ ps, p.char? ≠ none) :
    ps.flatMap Piece.bytes = encodeChars (ps.map Piece.shown) := by
  induction ps with
  | nil => rfl
  | cons p ps ih =>
    have tail := ih (fun q hq => each q (List.mem_cons_of_mem _ hq)) (fun q hq => chars q (List.mem_cons_of_mem _ hq))
    rw [List.flatMap_cons, tail, List.map_cons, encodeChars_cons]
    cases each p List.mem_cons_self with
    | char c => rfl
    | stray h => exact absurd rfl (chars _ List.mem_cons_self)

/-- Lossy reading loses nothing of a well-formed byte string. -/
theorem Valid.encode_decodeLossy {bs : Bytes} (h : Valid bs) : encode (decodeLossy bs) = bs := by
  obtain ⟨cs, rfl⟩ := h
  have shown : (cs.map Piece.ofChar).map Piece.shown = cs := by
    rw [List.map_map]
    exact List.map_id cs
  rw [encode, toList_decodeLossy, cut_encodeChars, shown]

/-- Two parts of a byte string meet between characters, whatever stands around: nothing follows, or
no continuation byte follows, or a byte of ASCII comes before. -/
inductive Meet (xs ys : Bytes) : Prop where
  | atEnd (h : ys = [])
  | beforeLead {b : UInt8} {rest : Bytes} (h : ys = b :: rest) (lead : isContinuation b = false)
  | afterAscii {init : Bytes} {b : UInt8} (h : xs = init ++ [b]) (ascii : b.toNat < 0x80)

/-- A byte string that is well formed is so up to every byte that does not continue a character. -/
theorem split_before_lead {cs : List Char} {xs rest : Bytes} {b : UInt8}
    (h : encodeChars cs = xs ++ b :: rest) (lead : isContinuation b = false) :
    ∃ as bs, cs = as ++ bs ∧ xs = encodeChars as ∧ b :: rest = encodeChars bs := by
  induction cs generalizing xs with
  | nil => simp [encodeChars] at h
  | cons c cs ih =>
    cases xs with
    | nil => exact ⟨[], c :: cs, rfl, rfl, h.symm⟩
    | cons x xs =>
      rw [encodeChars_cons] at h
      rcases List.append_eq_append_iff.1 h with ⟨ys, hx, hr⟩ | ⟨ys, hx, hr⟩
      · obtain ⟨as, bs, rfl, rfl, hb⟩ := ih hr
        exact ⟨c :: as, bs, rfl, by rw [hx, encodeChars_cons], hb⟩
      · cases ys with
        | nil =>
          obtain ⟨as, bs, rfl, has, hb⟩ := @ih [] (by simpa using hr.symm)
          refine ⟨c :: as, bs, rfl, ?_, hb⟩
          rw [encodeChars_cons, ← has, hx]
          simp
        | cons y ys =>
          obtain ⟨rfl, -⟩ := List.cons.inj hr
          have spelled := spells_encode c
          rw [hx] at spelled
          have := spelled.continues b (by simp)
          rw [lead] at this
          cases this

theorem Valid.split {xs ys : Bytes} (h : Valid (xs ++ ys)) (meet : Meet xs ys) : Valid xs ∧ Valid ys := by
  obtain ⟨cs, hcs⟩ := h
  cases meet with
  | atEnd hy =>
    rw [hy, List.append_nil] at hcs
    exact ⟨⟨cs, hcs⟩, ⟨[], hy⟩⟩
  | beforeLead hy lead =>
    rw [hy] at hcs
    obtain ⟨as, bs, -, hx, hb⟩ := split_before_lead hcs.symm lead
    exact ⟨⟨as, hx⟩, ⟨bs, hy.trans hb⟩⟩
  | @afterAscii init b hx ascii =>
    have lead : isContinuation b = false := by
      rw [Bool.eq_false_iff, Ne, isContinuation_iff]
      omega
    rw [hx, List.append_assoc] at hcs
    obtain ⟨as, bs, -, hi, hb⟩ := split_before_lead hcs.symm lead
    cases bs with
    | nil => cases hb
    | cons c bs =>
      obtain ⟨first, tail, hc⟩ := exists_encode_cons c
      have spelled := spells_encode c
      rw [encodeChars_cons, hc] at hb
      rw [hc] at spelled
      obtain ⟨rfl, hy⟩ := List.cons.inj hb
      obtain ⟨rfl, -⟩ := spelled.ascii ascii
      refine ⟨⟨as ++ [c], ?_⟩, ⟨bs, by simpa using hy⟩⟩
      rw [hx, hi, encodeChars_append, encodeChars_cons, hc]
      rfl

end PhpRename.Utf8
