import PhpRename.Name.Basic
import PhpRename.Proofs.Edit.Disjoint
import PhpRename.Proofs.Token.Drift

/-!
# Labels

What an accepted name is made of, and what that says about its bytes: a label is not empty and
holds no part of a line terminator.
-/

set_option autoImplicit false

namespace PhpRename.Name

open Utf8

/-- A name that is a label of the language. -/
def IsLabel (name : String) : Prop :=
  ∃ c rest, name.toList = c :: rest ∧ startsLabel c = true ∧ ∀ d ∈ rest, inLabel d = true

theorem labelFault?_eq_none_iff {name : String} : labelFault? name = none ↔ IsLabel name := by
  unfold labelFault? IsLabel
  cases name.toList with
  | nil => simp
  | cons c rest =>
    by_cases starts : startsLabel c = true
    · simp only [starts, Bool.not_true, Bool.false_eq_true, if_false, Option.map_eq_none_iff, List.find?_eq_none,
        Bool.not_eq_eq_eq_not, Bool.not_eq_false, List.cons.injEq]
      constructor
      · intro others
        exact ⟨c, rest, ⟨rfl, rfl⟩, starts, others⟩
      · rintro ⟨_, _, ⟨rfl, rfl⟩, -, others⟩
        exact others
    · simp [starts]

/-- A name is accepted just when it has no fault. -/
theorem accept_ok_iff {fault? : String → Option Reason} {name : String} :
    accept fault? name = .ok () ↔ fault? name = none := by
  rw [accept]
  cases fault? name with
  | none => exact iff_of_true rfl rfl
  | some reason => exact iff_of_false nofun nofun

theorem isLabel_of_classFault? {name : String} (h : classFault? name = none) : IsLabel name := by
  rw [classFault?] at h
  cases fault : labelFault? name with
  | none => exact labelFault?_eq_none_iff.1 fault
  | some reason => simp [fault] at h

theorem isLabel_of_methodFault? {name : String} (h : methodFault? name = none) : IsLabel name := by
  rw [methodFault?] at h
  cases fault : labelFault? name with
  | none => exact labelFault?_eq_none_iff.1 fault
  | some reason => simp [fault] at h

/-! ## Qualified names -/

/-- A name without a namespace is its own last segment. -/
theorem short_of_notMem {name : String} (no : '\\' ∉ name.toList) : short name = name := by
  have all : name.toList.reverse.takeWhile (· != '\\') = name.toList.reverse := by
    refine List.takeWhile_eq_self_iff.2 fun c mem => bne_iff_ne.2 ?_
    rintro rfl
    exact no (List.mem_reverse.1 mem)
  rw [short, Text.afterLast, all, List.reverse_reverse, String.ofList_toList]

theorem short_short (name : String) : short (short name) = short name := by
  refine short_of_notMem fun mem => ?_
  rw [short, String.toList_ofList, Text.afterLast, List.mem_reverse] at mem
  exact bne_iff_ne.1 (List.mem_takeWhile_imp (p := (· != '\\')) mem) rfl

/-- What stands in front of the last segment of a name: nothing, or its namespace with a backslash. -/
def qualifier (name : String) : String := String.ofList (name.toList.reverse.dropWhile (· != '\\')).reverse

theorem qualifier_append_short (name : String) : qualifier name ++ short name = name := by
  have parts := List.takeWhile_append_dropWhile (p := (· != '\\')) (l := name.toList.reverse)
  have whole := congrArg List.reverse parts
  rw [List.reverse_append, List.reverse_reverse] at whole
  apply String.toList_inj.1
  rw [String.toList_append, qualifier, short, Text.afterLast, String.toList_ofList, String.toList_ofList, whole]

/-- A text that may stand in front of a name. -/
def IsQualifier (text : String) : Prop := text = "" ∨ ∃ before, text = before ++ "\\"

theorem isQualifier_qualifier (name : String) : IsQualifier (qualifier name) := by
  have stop := List.head?_dropWhile_not (· != '\\') name.toList.reverse
  unfold IsQualifier qualifier
  cases rest : name.toList.reverse.dropWhile (· != '\\') with
  | nil => exact .inl rfl
  | cons c front =>
    rw [rest, List.head?_cons] at stop
    obtain rfl : c = '\\' := by simpa using stop
    refine .inr ⟨String.ofList front.reverse, ?_⟩
    rw [List.reverse_cons, String.ofList_append]

/-- A name whose first character is outside ASCII. -/
def StartsBeyondAscii (name : String) : Prop := ∃ c rest, name.toList = c :: rest ∧ 0x80 ≤ c.toNat

theorem StartsBeyondAscii.exists_encode {name : String} (h : StartsBeyondAscii name) :
    ∃ b tail, encode name = b :: tail ∧ 0x80 ≤ b := by
  obtain ⟨c, rest, split, beyond⟩ := h
  obtain ⟨lead, tail, encoded⟩ := exists_encode_cons c
  refine ⟨lead, tail ++ encodeChars rest, ?_, ?_⟩
  · rw [encode, split, encodeChars_cons, encoded, List.cons_append]
  · rw [UInt8.le_iff_toNat_le]
    by_contra low
    have mem : lead ∈ String.utf8EncodeChar c := by
      rw [encoded]
      exact List.mem_cons_self ..
    have same : c.toNat = lead.toNat := eq_of_mem_encode (Nat.not_le.1 low) mem
    exact low (same ▸ beyond)

/-! ## Bytes of a label -/

namespace IsLabel

variable {name : String}

theorem nonempty (h : IsLabel name) : name.toList ≠ [] := by
  obtain ⟨c, rest, split, -⟩ := h
  rw [split]
  exact List.cons_ne_nil c rest

theorem inLabel_of_mem (h : IsLabel name) : ∀ c ∈ name.toList, inLabel c = true := by
  obtain ⟨c, rest, split, starts, others⟩ := h
  rw [split]
  intro d hd
  rcases List.mem_cons.1 hd with rfl | hd
  · rw [inLabel, starts]
    rfl
  · exact others d hd

theorem notMem (h : IsLabel name) {c : Char} (no : inLabel c = false) : c ∉ name.toList := by
  intro mem
  rw [h.inLabel_of_mem c mem] at no
  cases no

/-- A label has no namespace. -/
theorem short_eq (h : IsLabel name) : short name = name := short_of_notMem (h.notMem (c := '\\') (by decide))

/-- The last segment of a qualified label. -/
theorem short_append {q : String} (h : IsLabel name) (qualifies : IsQualifier q) : short (q ++ name) = name := by
  have label : ∀ c ∈ name.toList.reverse, (c != '\\') = true := by
    intro c mem
    apply bne_iff_ne.2
    rintro rfl
    exact h.notMem (c := '\\') (by decide) (List.mem_reverse.1 mem)
  have stop : q.toList.reverse.takeWhile (· != '\\') = [] := by
    obtain rfl | ⟨before, rfl⟩ := qualifies
    · rfl
    · rw [String.toList_append, List.reverse_append]
      exact List.takeWhile_cons_of_neg (by decide)
  rw [short, Text.afterLast, String.toList_append, List.reverse_append, List.takeWhile_append_of_pos label, stop,
    List.append_nil, List.reverse_reverse, String.ofList_toList]

/-- No character of ASCII that is no label character has a byte in a label. -/
theorem notMem_encode (h : IsLabel name) {b : UInt8} {c : Char} (ascii : b.toNat < 0x80) (same : c.toNat = b.toNat)
    (no : inLabel c = false) : b ∉ encode name := by
  intro mem
  obtain ⟨d, hd, mem⟩ := List.mem_flatMap.1 mem
  have eq : d = c := Char.toNat_inj.1 ((eq_of_mem_encode ascii mem).trans same.symm)
  have holds := h.inLabel_of_mem d hd
  rw [eq, no] at holds
  cases holds

theorem lineFeed_notMem (h : IsLabel name) : 0x0a ∉ encode name :=
  h.notMem_encode (c := '\n') (by decide) rfl (by decide)

theorem return_notMem (h : IsLabel name) : 0x0d ∉ encode name :=
  h.notMem_encode (c := '\r') (by decide) rfl (by decide)

theorem encode_ne_nil (h : IsLabel name) : encode name ≠ [] := by
  obtain ⟨c, rest, split, -⟩ := h
  obtain ⟨lead, tail, encoded⟩ := exists_encode_cons c
  rw [encode, split, encodeChars_cons, encoded]
  exact List.cons_ne_nil _ _

theorem firm (h : IsLabel name) : Edit.Firm (encode name) := by
  cases last : (encode name).getLast? with
  | none => exact absurd (List.getLast?_eq_none_iff.1 last) h.encode_ne_nil
  | some b =>
    have mem := List.mem_of_getLast? last
    refine ⟨b, last, ?_, ?_⟩
    · rintro rfl
      exact h.lineFeed_notMem mem
    · rintro rfl
      exact h.return_notMem mem

end IsLabel

end PhpRename.Name
