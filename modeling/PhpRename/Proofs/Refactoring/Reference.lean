import PhpRename.Proofs.Edit.Places
import PhpRename.Proofs.Lexer.Reread
import PhpRename.Proofs.Refactoring.Rename

/-!
# References to a class

The edits of high confidence that renaming a class proposes are those of the references to it: identifiers whose
last segment is the old name, where a class is meant. Each aims at that last segment, so carrying all of them out
writes the tokens of the source with the new name as the last segment of each reference.
-/

set_option autoImplicit false

namespace PhpRename

open Utf8 Lexer

/-- Whether an edit replaces the end of a token. -/
def Edit.ends (e : Edit) (t : Token) : Bool :=
  e.length ≤ t.byteSize && e.key == t.positionOf (t.byteSize - e.length)

/-- Whether edits replace the end of an identifier. -/
def Token.editedBy (t : Token) (edits : List Edit) : Bool := t.kind == .identifier && edits.any (·.ends t)

/-- The text of a token with a new name as its last segment, where edits replace its end. -/
def Token.renamedText (t : Token) (edits : List Edit) (new : String) : String :=
  if t.editedBy edits then Name.qualifier t.text ++ new else t.text

namespace ClassRename

variable {old new : String} {ts : Tokens} {i : Nat} {t : Token} {e : Edit} {edits : List Edit} {source : Bytes}

/-- A token that refers to a class by its old name. -/
structure Refers (old : String) (ts : Tokens) (i : Nat) (t : Token) : Prop where
  token : ts[i]? = some t
  kind : t.kind = .identifier
  short : Name.short t.text = old
  refers : refersToClass ts i = true

/-- The edits of references, in any order. -/
def AreReferences (old new : String) (ts : Tokens) (edits : List Edit) : Prop :=
  ∀ e, e ∈ edits ↔ ∃ i t, Refers old ts i t ∧ e = editName new t old

theorem permits_iff : EditMode.conservative.permits e.confidence = true ↔ e.confidence = .high := by
  rw [EditMode.permits, beq_iff_eq]

/-- The sure edits of a token are those of a reference. -/
theorem mem_edits_iff : e ∈ ClassRename.edits old new ts i ∧ e.confidence = .high ↔
    ∃ t, Refers old ts i t ∧ e = editName new t old := by
  constructor
  · rintro ⟨mem, high⟩
    have mention : ∀ t, e ∉ editMentions old new t := by
      intro t mem
      obtain ⟨offset, -, rfl⟩ := List.mem_map.1 mem
      cases high
    unfold ClassRename.edits at mem
    split at mem
    · cases mem
    · rename_i t token
      split at mem
      · rename_i kind
        split at mem
        · rename_i refers
          rw [Bool.and_eq_true, beq_iff_eq] at refers
          exact ⟨t, ⟨token, kind, refers.1, refers.2⟩, List.mem_singleton.1 mem⟩
        · cases mem
      · exact absurd mem (mention t)
      · exact absurd mem (mention t)
      · exact absurd mem (mention t)
      · exact absurd mem (mention t)
      · cases mem
  · rintro ⟨t, h, rfl⟩
    refine ⟨?_, rfl⟩
    unfold ClassRename.edits
    rw [h.token]
    simp only [h.kind, h.short, h.refers, beq_self_eq_true, Bool.and_self, if_true]
    exact List.mem_singleton.2 rfl

/-- The sure proposals for a file are the edits of its references. -/
theorem areReferences_proposals {r : Resolver} :
    AreReferences old new r.tokens (((Refactoring.renameClass old new).proposals r r.tokens.size).filter
      (EditMode.conservative.permits ·.confidence)) := by
  intro e
  have same : ∀ n, (Refactoring.learned r n).tokens = r.tokens := fun n => (Refactoring.learns_learned r n).tokens
  rw [List.mem_filter, permits_iff, Refactoring.proposals, List.mem_flatMap]
  constructor
  · rintro ⟨⟨i, -, mem⟩, high⟩
    have mem : e ∈ ClassRename.edits old new (Refactoring.learned r (i + 1)).tokens i := mem
    rw [same] at mem
    exact ⟨i, mem_edits_iff.1 ⟨mem, high⟩⟩
  · rintro ⟨i, t, h, rfl⟩
    refine ⟨⟨i, List.mem_range.2 (Array.getElem?_eq_some_iff.1 h.token).1, ?_⟩, rfl⟩
    show _ ∈ ClassRename.edits old new (Refactoring.learned r (i + 1)).tokens i
    rw [same]
    exact (mem_edits_iff.2 ⟨t, h, rfl⟩).1

/-! ## Where the edit of a reference aims -/

namespace Refers

theorem text (h : Refers old ts i t) : t.text = Name.qualifier t.text ++ old := by
  conv => lhs; rw [← Name.qualifier_append_short t.text, h.short]

theorem encode_text (h : Refers old ts i t) : encode t.text = encode (Name.qualifier t.text) ++ encode old := by
  conv => lhs; rw [h.text, encode_append]

theorem byteSize (h : Refers old ts i t) :
    t.byteSize = (encode (Name.qualifier t.text)).length + (encode old).length := by
  rw [Token.byteSize, h.encode_text, List.length_append]

/-- Where the last segment of a reference starts. -/
theorem spanStart_succ (h : Refers old (tokenize source) i t) (valid : Valid source) :
    spanStart source (i + 1) = spanStart source i + (encode (Name.qualifier t.text)).length + (encode old).length := by
  obtain ⟨l, token⟩ := exists_isToken h.token
  rw [Lexer.spanStart_succ token.span, ← token.encode_text valid, h.encode_text, List.length_append, Nat.add_assoc]

/-- The edit of a reference aims at its last segment. -/
theorem targets (h : Refers old (tokenize source) i t) (new : String) (valid : Valid source) :
    (editName new t old).Targets source (spanStart source i + (encode (Name.qualifier t.text)).length) (encode old) := by
  obtain ⟨l, token⟩ := exists_isToken h.token
  have noFeed := Refactoring.lineFeed_notMem_text token h.kind
  have size := h.byteSize
  refine ⟨?_, rfl, ?_⟩
  · rw [← token.positionOf valid (by omega), Token.positionOf_of_notMem noFeed (by omega)]
    simp only [Edit.key, editName, size, Nat.add_sub_cancel]
  · rw [← List.drop_drop, drop_spanStart token.span, ← token.encode_text valid, h.encode_text, List.append_assoc,
      List.drop_left]
    exact List.prefix_append _ _

theorem ends (h : Refers old (tokenize source) i t) : (editName new t old).ends t = true := by
  obtain ⟨l, isToken⟩ := exists_isToken h.token
  have size := h.byteSize
  have length : (editName new t old).length = (encode old).length := rfl
  have key : (editName new t old).key = t.positionOf (t.byteSize - (encode old).length) := by
    rw [Token.positionOf_of_notMem (Refactoring.lineFeed_notMem_text isToken h.kind) (by omega)]
    rfl
  rw [Edit.ends, Bool.and_eq_true, decide_eq_true_eq, beq_iff_eq, length]
  exact ⟨by omega, key⟩

end Refers

/-! ## Which tokens are edited -/

theorem spanStart_byteSize (valid : Valid source) (token : (tokenize source)[i]? = some t) :
    spanStart source (i + 1) = spanStart source i + t.byteSize := by
  obtain ⟨l, isToken⟩ := exists_isToken token
  rw [Lexer.spanStart_succ isToken.span, Token.byteSize, isToken.encode_text valid]

section

variable (valid : Valid source) (references : AreReferences old new (tokenize source) edits)
include valid references

/-- The edits of references replace the ends of the references, and of no other tokens. -/
theorem editedBy_iff (isOld : Name.IsLabel old) (token : (tokenize source)[i]? = some t) :
    t.editedBy edits = true ↔ Refers old (tokenize source) i t := by
  have some := List.length_pos_iff.2 isOld.encode_ne_nil
  obtain ⟨l, isToken⟩ := exists_isToken token
  rw [Token.editedBy, Bool.and_eq_true, beq_iff_eq, List.any_eq_true]
  constructor
  · rintro ⟨kind, e, mem, here⟩
    rw [Edit.ends, Bool.and_eq_true, decide_eq_true_eq, beq_iff_eq] at here
    obtain ⟨fits, key⟩ := here
    obtain ⟨j, u, h, rfl⟩ := (references e).1 mem
    have length : (editName new u old).length = (encode old).length := rfl
    rw [length] at fits key
    -- Both tokens end where the edit does.
    have aims := h.targets new valid
    have next := h.spanStart_succ valid
    have next' := spanStart_byteSize valid token
    have bound := spanStart_le source (j + 1)
    have bound' := spanStart_le source (i + 1)
    rw [isToken.positionOf valid (by omega), aims.key_eq_iff (by omega) (by omega)] at key
    have inside := (Array.getElem?_eq_some_iff.1 token).1
    have inside' := (Array.getElem?_eq_some_iff.1 h.token).1
    obtain lt | rfl | lt := Nat.lt_trichotomy i j
    · have order : spanStart source (i + 1) ≤ spanStart source j := spanStart_mono lt
      have later : spanStart source j < spanStart source (j + 1) := spanStart_lt (Nat.lt_succ_self j) inside'
      omega
    · obtain rfl : u = t := Option.some.inj (h.token.symm.trans token)
      exact h
    · have order : spanStart source (j + 1) ≤ spanStart source i := spanStart_mono lt
      have later : spanStart source i < spanStart source (i + 1) := spanStart_lt (Nat.lt_succ_self i) inside
      omega
  · intro h
    exact ⟨h.kind, editName new t old, (references _).2 ⟨i, t, h, rfl⟩, h.ends⟩

/-- The edit of another reference aims outside of a token. -/
theorem aimsOutside (token : (tokenize source)[i]? = some t) (mem : e ∈ edits) :
    Refers old (tokenize source) i t ∧ e = editName new t old ∨
      Edit.AimsOutside source (encode old) (spanStart source i) t.byteSize e := by
  obtain ⟨j, u, h, rfl⟩ := (references e).1 mem
  have next := h.spanStart_succ valid
  have next' := spanStart_byteSize valid token
  obtain lt | rfl | lt := Nat.lt_trichotomy i j
  · have order : spanStart source (i + 1) ≤ spanStart source j := spanStart_mono lt
    exact .inr ⟨_, h.targets new valid, .inr (by omega)⟩
  · obtain rfl : u = t := Option.some.inj (h.token.symm.trans token)
    exact .inl ⟨h, rfl⟩
  · have order : spanStart source (j + 1) ≤ spanStart source i := spanStart_mono lt
    exact .inr ⟨_, h.targets new valid, .inl (by omega)⟩

/-- One token: it is written with the new name where it is a reference, and as it is elsewhere. -/
theorem substituteAt_token (isOld : Name.IsLabel old) (apart : edits.Pairwise Edit.Apart)
    (token : (tokenize source)[i]? = some t) :
    Edit.substituteAt edits (Position.ofOffset source (spanStart source i)) (source.drop (spanStart source i)) =
      encode (t.renamedText edits new) ++
        Edit.substituteAt edits (Position.ofOffset source (spanStart source (i + 1)))
          (source.drop (spanStart source (i + 1))) := by
  have no := isOld.lineFeed_notMem
  have some := isOld.encode_ne_nil
  obtain ⟨l, isToken⟩ := exists_isToken token
  have next := spanStart_byteSize valid token
  have here : source.drop (spanStart source i) = encode t.text ++ source.drop (spanStart source (i + 1)) := by
    rw [next, ← List.drop_drop, drop_spanStart isToken.span, isToken.encode_text valid, Token.byteSize,
      isToken.encode_text valid, List.drop_left]
  have others := fun e (mem : e ∈ edits) => aimsOutside valid references token mem
  by_cases edited : t.editedBy edits = true
  · have h := (editedBy_iff valid references isOld token).1 edited
    have size := h.byteSize
    rw [Token.renamedText, if_pos edited, encode_append, List.append_assoc]
    rw [h.encode_text, List.append_assoc] at here
    have behind : source.drop (spanStart source i + (encode (Name.qualifier t.text)).length) =
        encode old ++ source.drop (spanStart source (i + 1)) := by
      rw [← List.drop_drop, here, List.drop_left]
    rw [here, Edit.substituteAt_keep no some here,
      Edit.substituteAt_replace no some apart ((references _).2 ⟨i, t, h, rfl⟩) (h.targets new valid) behind, next, size,
      Nat.add_assoc]
    · rfl
    · intro a ha
      obtain ⟨-, rfl⟩ | ⟨n, aims, away⟩ := others a ha
      · exact .inl rfl
      · exact .inr ⟨n, aims, by omega⟩
    · intro a ha
      obtain ⟨-, rfl⟩ | ⟨n, aims, away⟩ := others a ha
      · exact ⟨_, h.targets new valid, .inr (Nat.le_refl _)⟩
      · exact ⟨n, aims, by omega⟩
  · rw [Token.renamedText, if_neg edited, here, Edit.substituteAt_keep no some here, next]
    · rfl
    · intro a ha
      obtain ⟨h, -⟩ | away := others a ha
      · exact absurd ((editedBy_iff valid references isOld token).2 h) edited
      · exact away

/-- All tokens from one on. -/
theorem substituteAt_tokens (isOld : Name.IsLabel old) (apart : edits.Pairwise Edit.Apart) (left : Nat) {i : Nat}
    (size : i + left = (tokenize source).size) :
    Edit.substituteAt edits (Position.ofOffset source (spanStart source i)) (source.drop (spanStart source i)) =
      spelled (((tokenize source).toList.drop i).map fun t => (t.kind, t.renamedText edits new)) := by
  induction left generalizing i with
  | zero =>
    have ends : spanStart source i = source.length := by
      rw [spanStart, List.take_of_length_le (by rw [← size_tokenize]; omega), flatten_spans]
    have none : Edit.insertedAt edits (Position.ofOffset source source.length) = [] := by
      rw [Edit.insertedAt, List.filter_eq_nil_iff.2, List.flatMap_nil]
      intro e mem starts
      obtain ⟨j, u, h, rfl⟩ := (references e).1 mem
      have some := List.length_pos_iff.2 isOld.encode_ne_nil
      have next := h.spanStart_succ valid
      have bound := spanStart_le source (j + 1)
      have same := ((h.targets new valid).key_eq_iff (by omega) (Nat.le_refl _)).1 (eq_of_beq starts)
      omega
    have all : (tokenize source).toList.drop i = [] := List.drop_eq_nil_of_le (by rw [Array.length_toList]; omega)
    rw [ends, List.drop_length, Edit.substituteAt, none, all]
    rfl
  | succ left ih =>
    have bound : i < (tokenize source).size := by omega
    have token : (tokenize source)[i]? = some (tokenize source)[i] := Array.getElem?_eq_getElem bound
    have rest : (tokenize source).toList.drop i = (tokenize source)[i] :: (tokenize source).toList.drop (i + 1) := by
      rw [List.drop_eq_getElem_cons (by rw [Array.length_toList]; exact bound), Array.getElem_toList]
    rw [substituteAt_token valid references isOld apart token, ih (by omega), rest, List.map_cons, spelled_cons]

/-- **What the edits of references write**: the tokens of the source, each reference with the new name. -/
theorem substitute_references (isOld : Name.IsLabel old) (inside : ∀ e ∈ edits, e.LiesIn source)
    (apart : edits.Pairwise Edit.Apart) :
    Edit.substitute edits source =
      spelled ((tokenize source).toList.map fun t => (t.kind, t.renamedText edits new)) := by
  have all := substituteAt_tokens valid references isOld apart (tokenize source).size (i := 0) (Nat.zero_add _)
  rw [Edit.substitute_eq_substituteAt inside]
  exact all

end

/-! ## The tokens that are written -/

/-- Behind a number the old name alone is edited only where the new one is no part of a number. -/
def KeepsNumbers (old new : String) (edits : List Edit) (ts : Tokens) : Prop :=
  Name.StartsBeyondAscii new ∨ ∀ (i : Nat) (t : Token), ts.kindAt? i = some .number → ts[i + 1]? = some t →
    t.editedBy edits = true → t.text ≠ old

/-- Edited identifiers that end in the old name are renamed. -/
theorem renamed_tokens (tokens : List Token) (before : Option TokenKind)
    (short : ∀ t ∈ tokens, t.editedBy edits = true → Name.short t.text = old)
    (numbers : Name.StartsBeyondAscii new ∨ ∀ (i : Nat) (t : Token),
      (before :: tokens.map fun t => some t.kind)[i]? = some (some .number) → tokens[i]? = some t →
        t.editedBy edits = true → t.text ≠ old) :
    Renamed old new before (tokens.map fun t => (t.kind, t.text))
      (tokens.map fun t => (t.kind, t.renamedText edits new)) := by
  induction tokens generalizing before with
  | nil => exact .nil before
  | cons t tokens ih =>
    have rest := ih (some t.kind) (fun u mem => short u (List.mem_cons_of_mem t mem))
      (numbers.imp_right fun apart i u number token => apart (i + 1) u number token)
    rw [List.map_cons, List.map_cons]
    by_cases edited : t.editedBy edits = true
    · have kind : t.kind = .identifier := by
        rw [Token.editedBy, Bool.and_eq_true, beq_iff_eq] at edited
        exact edited.1
      have text : Name.qualifier t.text ++ old = t.text := by
        rw [← short t (List.mem_cons_self ..) edited, Name.qualifier_append_short]
      have apart : before = some .number → Name.qualifier t.text = "" → Name.StartsBeyondAscii new := by
        rintro rfl bare
        rw [bare, String.empty_append] at text
        obtain beyond | apart := numbers
        · exact beyond
        · exact absurd text.symm (apart 0 t rfl rfl edited)
      rw [kind] at rest
      have renamed := Renamed.rename (Name.isQualifier_qualifier t.text) apart rest
      rw [text] at renamed
      rw [Token.renamedText, if_pos edited, kind]
      exact renamed
    · rw [Token.renamedText, if_neg edited]
      exact .keep before t.kind t.text rest

/-- The tokens of a source, with the references renamed. -/
theorem renamed_retold (valid : Valid source) (isOld : Name.IsLabel old)
    (references : AreReferences old new (tokenize source) edits)
    (numbers : KeepsNumbers old new edits (tokenize source)) :
    Renamed old new none (retold source) ((tokenize source).toList.map fun t => (t.kind, t.renamedText edits new)) := by
  apply renamed_tokens
  · intro t mem edited
    obtain ⟨i, token⟩ := List.mem_iff_getElem?.1 mem
    rw [Array.getElem?_toList] at token
    exact ((editedBy_iff valid references isOld token).1 edited).short
  · refine numbers.imp_right fun apart i t number token edited => ?_
    cases i with
    | zero => cases number
    | succ i =>
      rw [List.getElem?_cons_succ, List.getElem?_map, Array.getElem?_toList] at number
      rw [Array.getElem?_toList] at token
      apply apart i t ?_ token edited
      obtain ⟨u, before, kind⟩ := Option.map_eq_some_iff.1 number
      rw [Tokens.kindAt?, before, Option.map_some, kind]

end ClassRename

end PhpRename
