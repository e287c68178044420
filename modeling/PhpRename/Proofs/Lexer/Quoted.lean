import PhpRename.Include.Argument
import PhpRename.Proofs.Lexer.Spelling

/-!
# Texts between quotes

What may stand between quotes, so that the lexer reads the text with its quotes as one string: no quote but
behind a backslash that takes it along, and no such backslash at the end (`reads_quoted_iff`). What a string
stands for is its text with the quotes taken off, and nothing else (`stringValue?_eq_some_iff`).
-/

set_option autoImplicit false

namespace PhpRename

open Ascii Utf8

/-- The text with a quote on both sides. -/
def quoted (quote : Char) (text : String) : String := String.singleton quote ++ text ++ String.singleton quote

theorem toList_quoted (quote : Char) (text : String) :
    (quoted quote text).toList = quote :: (text.toList ++ [quote]) := by
  simp [quoted]

/-- The texts that may stand between two quotes of a kind. A backslash takes the next character with it,
whatever that is. -/
inductive Quotable (quote : Char) : List Char → Prop
  | nil : Quotable quote []
  | plain {c : Char} {cs : List Char} (noSlash : c ≠ '\\') (noQuote : c ≠ quote) (rest : Quotable quote cs) :
      Quotable quote (c :: cs)
  | escaped {c : Char} {cs : List Char} (rest : Quotable quote cs) : Quotable quote ('\\' :: c :: cs)

/-- The kinds of quotes of a string with a fixed text. -/
def IsStringQuote (quote : Char) : Prop := quote = '\'' ∨ quote = '"'

/-! ## The fixed text of a string -/

/-- The fixed text of a string is what stands between its quotes, where that names no variable. -/
theorem stringValue?_eq_some_iff {text inner : String} {quote : Char} :
    stringValue? text = some (inner, quote) ↔
      IsStringQuote quote ∧ text = quoted quote inner ∧ (quote = '"' → '$' ∉ inner.toList) := by
  rw [← @String.toList_inj text, toList_quoted, stringValue?]
  constructor
  · intro h
    split at h
    · cases h
    rename_i first rest chars
    split at h
    · cases h
    rename_i isQuote
    split at h
    · cases h
    rename_i closed
    dsimp only at h
    split at h
    · cases h
    rename_i fixed
    obtain ⟨rfl, rfl⟩ := Prod.mk.inj (Option.some.inj h)
    have last : first ∈ rest.getLast? := by simpa using closed
    have known : first ≠ '\'' → first = '"' := by simpa using isQuote
    refine ⟨Classical.or_iff_not_imp_left.2 known, ?_, ?_⟩
    · rw [chars, String.toList_ofList, List.dropLast_append_getLast? first last]
    · rintro rfl
      simpa using fixed
  · rintro ⟨isQuote, chars, fixed⟩
    rw [chars]
    have known : ¬ (quote != '\'' && quote != '"') = true := by
      obtain rfl | rfl := isQuote <;> decide
    have free : ¬ (quote == '"' && inner.toList.contains '$') = true := by simpa using fixed
    simp only [if_neg known, List.getLast?_append, List.getLast?_singleton, Option.some_or, bne_self_eq_false,
      List.dropLast_concat, if_neg free, String.ofList_toList, if_false, Bool.false_eq_true]

/-- A text with its quotes has that text or, where a variable stands in it, none. -/
theorem stringValue?_quoted {text : String} {quote : Char} (isQuote : IsStringQuote quote) :
    stringValue? (quoted quote text) = if quote = '"' ∧ '$' ∈ text.toList then none else some (text, quote) := by
  split
  · rename_i interpolated
    refine Option.eq_none_iff_forall_ne_some.2 fun found value => ?_
    obtain ⟨-, same, fixed⟩ := stringValue?_eq_some_iff.1 value
    rw [← String.toList_inj, toList_quoted, toList_quoted] at same
    obtain ⟨first, rest⟩ := List.cons.inj same
    have text := (List.append_inj' rest rfl).1
    exact fixed (first ▸ interpolated.1) (text ▸ interpolated.2)
  · rename_i fixed
    exact stringValue?_eq_some_iff.2 ⟨isQuote, rfl, fun double here => fixed ⟨double, here⟩⟩

namespace Quotable

variable {quote : Char}

theorem of_plain {cs : List Char} (h : ∀ c ∈ cs, c ≠ '\\' ∧ c ≠ quote) : Quotable quote cs := by
  induction cs with
  | nil => exact .nil
  | cons c cs ih =>
    have first := h c (List.mem_cons_self ..)
    exact .plain first.1 first.2 (ih fun d mem => h d (List.mem_cons_of_mem c mem))

/-- A text that may not stand between quotes has a first quote that closes it, or a last backslash that takes
the closing quote along. -/
theorem or_split (quote : Char) : ∀ cs : List Char, Quotable quote cs ∨
    (∃ inner rest, Quotable quote inner ∧ cs = inner ++ quote :: rest) ∨
    ∃ inner, Quotable quote inner ∧ cs = inner ++ ['\\']
  | [] => .inl .nil
  | c :: cs => by
    by_cases slash : c = '\\'
    · subst slash
      cases cs with
      | nil => exact .inr (.inr ⟨[], .nil, rfl⟩)
      | cons d cs =>
        obtain whole | ⟨inner, rest, front, split⟩ | ⟨inner, front, split⟩ := or_split quote cs
        · exact .inl (.escaped whole)
        · exact .inr (.inl ⟨'\\' :: d :: inner, rest, .escaped front, by rw [split]; rfl⟩)
        · exact .inr (.inr ⟨'\\' :: d :: inner, .escaped front, by rw [split]; rfl⟩)
    · by_cases same : c = quote
      · exact .inr (.inl ⟨[], cs, .nil, by rw [same]; rfl⟩)
      · obtain whole | ⟨inner, rest, front, split⟩ | ⟨inner, front, split⟩ := or_split quote cs
        · exact .inl (.plain slash same whole)
        · exact .inr (.inl ⟨c :: inner, rest, .plain slash same front, by rw [split]; rfl⟩)
        · exact .inr (.inr ⟨c :: inner, .plain slash same front, by rw [split]; rfl⟩)

end Quotable

namespace Lexer

/-! ## The length of a string -/

section

variable {quote : Char} {rest : Bytes}

theorem quotedLength_pos {b : UInt8} {bs : Bytes} (ne : bs ≠ []) : 1 ≤ quotedLength b bs := by
  fun_cases quotedLength b bs <;> first | omega | exact absurd rfl ne

theorem quotedLength_plain {q b : UInt8} (noSlash : b ≠ byte '\\') (noQuote : b ≠ q) :
    quotedLength q (b :: rest) = quotedLength q rest + 1 := by
  cases rest with
  | nil => rfl
  | cons c rest => rw [quotedLength, beq_false_of_ne noSlash, beq_false_of_ne noQuote]; rfl

theorem quotedLength_append {q : UInt8} {xs : Bytes} (plain : ∀ b ∈ xs, b ≠ byte '\\' ∧ b ≠ q) :
    quotedLength q (xs ++ rest) = xs.length + quotedLength q rest := by
  induction xs with
  | nil => rw [List.nil_append, List.length_nil, Nat.zero_add]
  | cons b xs ih =>
    have first := plain b (List.mem_cons_self ..)
    rw [List.cons_append, quotedLength_plain first.1 first.2, ih fun c mem => plain c (List.mem_cons_of_mem b mem),
      List.length_cons]
    omega

/-- The bytes of a character are not those of another one in ASCII. -/
theorem ne_byte_of_mem {b : UInt8} {c d : Char} (mem : b ∈ String.utf8EncodeChar c) (ascii : d.toNat < 0x80)
    (ne : c ≠ d) : b ≠ byte d := by
  rintro rfl
  have same : (byte d).toNat = d.toNat := toNat_ofNat (by omega)
  exact ne (Char.toNat_inj.1 ((eq_of_mem_encode (by omega) mem).trans same))

/-- The lexer goes over a text that may stand between quotes as a whole. -/
theorem quotedLength_quotable {cs : List Char} (h : Quotable quote cs) (ascii : quote.toNat < 0x80) :
    quotedLength (byte quote) (encodeChars cs ++ rest) = (encodeChars cs).length + quotedLength (byte quote) rest := by
  induction h with
  | nil => exact (Nat.zero_add _).symm
  | plain noSlash noQuote _ ih =>
    rw [encodeChars_cons, List.append_assoc, quotedLength_append fun b mem =>
      ⟨ne_byte_of_mem mem (by decide) noSlash, ne_byte_of_mem mem ascii noQuote⟩, ih, List.length_append, Nat.add_assoc]
  | @escaped c cs _ ih =>
    obtain ⟨lead, tail, encoded⟩ := exists_encode_cons c
    have continues := (encoded ▸ spells_encode c).continues
    have beyond : ∀ b ∈ tail, ∀ d : Char, d.toNat < 0x80 → b ≠ byte d := by
      rintro b mem d small rfl
      have high := (isContinuation_iff.1 (continues _ mem)).1
      have same : (byte d).toNat = d.toNat := toNat_ofNat (by omega)
      omega
    have slash : String.utf8EncodeChar '\\' = [byte '\\'] := by decide
    rw [encodeChars_cons, encodeChars_cons, encoded, slash, List.singleton_append, List.cons_append, List.cons_append,
      List.cons_append, quotedLength, if_pos (beq_self_eq_true _), List.append_assoc,
      quotedLength_append fun b mem => ⟨beyond b mem '\\' (by decide), beyond b mem quote ascii⟩, ih]
    simp only [List.length_cons, List.length_append]
    omega

/-- A string ends at its closing quote just when its text may stand between quotes. -/
theorem quotedLength_eq_iff {cs : List Char} (isQuote : IsStringQuote quote) (ne : rest ≠ []) :
    quotedLength (byte quote) (encodeChars cs ++ byte quote :: rest) = (encodeChars cs).length + 1 ↔
      Quotable quote cs := by
  have ascii : quote.toNat < 0x80 := by
    obtain rfl | rfl := isQuote <;> decide
  have one : String.utf8EncodeChar quote = [byte quote] := encode_one ascii
  have closes (bs : Bytes) (more : bs ≠ []) : quotedLength (byte quote) (byte quote :: bs) = 1 := by
    obtain ⟨b, bs, rfl⟩ := List.exists_cons_of_ne_nil more
    have noSlash : (byte quote == byte '\\') = false := by
      obtain rfl | rfl := isQuote <;> decide
    rw [quotedLength, noSlash, if_neg Bool.false_ne_true, if_pos (beq_self_eq_true _)]
  refine ⟨fun length => ?_, fun whole => by rw [quotedLength_quotable whole ascii, closes rest ne]⟩
  obtain whole | ⟨inner, behind, front, rfl⟩ | ⟨inner, front, rfl⟩ := Quotable.or_split quote cs
  · exact whole
  · have early :=
      @quotedLength_quotable quote (byte quote :: (encodeChars behind ++ byte quote :: rest)) inner front ascii
    rw [closes _ (by simp)] at early
    rw [encodeChars_append, encodeChars_cons, one, List.append_assoc, List.append_assoc,
      List.singleton_append] at length
    simp only [List.length_append, List.length_cons, List.length_nil] at length
    omega
  · have slash : encodeChars ['\\'] = [byte '\\'] := by decide
    have late := @quotedLength_quotable quote (byte '\\' :: byte quote :: rest) inner front ascii
    rw [quotedLength.eq_def (byte quote) (byte '\\' :: byte quote :: rest)] at late
    have more : 1 ≤ quotedLength (byte quote) rest := quotedLength_pos ne
    simp only [beq_self_eq_true, if_true] at late
    rw [encodeChars_append, slash, List.append_assoc, List.singleton_append, late] at length
    simp only [List.length_append, List.length_cons, List.length_nil] at length
    omega

/-! ## Strings in code -/

theorem scanCode_quote {last : Option TokenKind} (isQuote : IsStringQuote quote) :
    scanCode last (byte quote) rest = (.stringLit, 1 + quotedLength (byte quote) rest) := by
  have plain : isPlain (byte quote) = true := by
    obtain rfl | rfl := isQuote <;> decide
  have first : (byte quote == byte '$') = false ∧ startsName (byte quote) = false ∧
      (byte quote == byte '\\') = false ∧ isDigit (byte quote) = false ∧ Lexer.isQuote (byte quote) = true := by
    obtain rfl | rfl := isQuote <;> decide
  rw [scanCode_plain plain]
  simp only [first, Bool.false_and, Bool.or_self, Bool.false_eq_true, if_false, if_true]

/-- In code, a text with its quotes is read as one string, in front of anything, just when it may stand
between them. -/
theorem reads_quoted_iff {last : Option TokenKind} {text : String} (isQuote : IsStringQuote quote) (ne : rest ≠ []) :
    Reads ⟨true, last⟩ .stringLit (quoted quote text) rest ↔ Quotable quote text.toList := by
  have one : String.utf8EncodeChar quote = [byte quote] := by
    obtain rfl | rfl := isQuote <;> decide
  have bytes : encode (quoted quote text) = byte quote :: (encodeChars text.toList ++ [byte quote]) := by
    rw [encode, toList_quoted, encodeChars_cons, encodeChars_append, encodeChars_cons, one]
    rfl
  rw [← quotedLength_eq_iff isQuote ne]
  constructor
  · rintro ⟨b, tail, split, read⟩
    rw [bytes] at split
    obtain ⟨rfl, rfl⟩ := List.cons.inj split
    rw [scan, if_pos rfl, scanCode_quote isQuote, List.append_assoc, List.singleton_append] at read
    have length := (Prod.mk.inj read).2
    rw [List.length_append, List.length_singleton] at length
    omega
  · intro length
    refine ⟨byte quote, _, bytes, ?_⟩
    rw [scan, if_pos rfl, scanCode_quote isQuote, List.append_assoc, List.singleton_append, length,
      List.length_append, List.length_singleton, Nat.add_comm]

end

end Lexer

end PhpRename
