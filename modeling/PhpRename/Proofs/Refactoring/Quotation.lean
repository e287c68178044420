import PhpRename.Proofs.Lexer.Quoted
import PhpRename.Proofs.Path.Segments
import PhpRename.Proofs.Refactoring.Redirect

/-!
# Edits of includes, read back

The edit of an include writes the new path text between the quotes of the old argument, as it is. So the code
is read back as meant just when the text may stand between these quotes, and as a fixed text just when no
variable stands in it (`edits_readBack`). That holds for every new place whose path has no backslash, dollar
sign or quote of the kind; with an apostrophe in the name of a file it fails (`edits_notReadBack`).
-/

set_option autoImplicit false

namespace PhpRename

open Ascii Lexer Utf8

/-! ## Characters of a path text -/

namespace Path

/-- What is shown of a segment is shown of the path. -/
theorem mem_text_of_mem_segments {p : Path} {segment : Bytes} (mem : segment ∈ segments p.bytes) {c : Char}
    (h : c ∈ (decodeLossy segment).toList) : c ∈ p.text.toList := by
  have joined : Text.join (byte '/') (segments p.bytes) = p.bytes := Text.join_splitOn (byte '/') p.bytes
  have written := toList_decodeLossy_join (c := '/') (by decide) (segments p.bytes)
  rw [joined] at written
  rw [text, written]
  exact Text.mem_join_of_mem (List.mem_map_of_mem mem) h

/-- What is shown of a component has only characters of the path, slashes and dots. -/
theorem mem_text_of_mem_components {p : Path} {component : Component} {c : Char} (mem : component ∈ p.components)
    (h : c ∈ (decodeLossy component.bytes).toList) : c ∈ p.text.toList ∨ c = '/' ∨ c = '.' := by
  have root : decodeLossy Component.root.bytes = "/" := decodeLossy_encode "/"
  have current : decodeLossy Component.current.bytes = "." := decodeLossy_encode "."
  have parent : decodeLossy Component.parent.bytes = ".." := decodeLossy_encode ".."
  have inner (found : component ∈ (segments p.bytes).filterMap ofSegment?) :
      c ∈ p.text.toList ∨ c = '/' ∨ c = '.' := by
    obtain ⟨segment, isSegment, spelled⟩ := List.mem_filterMap.1 found
    rw [ofSegment?] at spelled
    split at spelled
    · cases spelled
    split at spelled
    · cases spelled
      exact .inr (.inr (by simpa [parent] using h))
    · cases spelled
      exact .inl (mem_text_of_mem_segments isSegment h)
  rw [components] at mem
  split at mem
  · obtain rfl | found := List.mem_cons.1 mem
    · exact .inr (.inl (by simpa [root] using h))
    · exact inner found
  split at mem
  · obtain rfl | found := List.mem_cons.1 mem
    · exact .inr (.inr (by simpa [current] using h))
    · exact inner found
  · exact inner mem

/-- A path as seen from a directory has only characters of its text, slashes and dots. -/
theorem mem_relativeTo {target base : Path} {c : Char} (h : c ∈ (target.relativeTo base).toList) :
    c ∈ target.text.toList ∨ c = '/' ∨ c = '.' := by
  rw [relativeTo, String.toList_ofList] at h
  obtain rfl | ⟨_, piece, here⟩ := Text.mem_join h
  · exact .inr (.inl rfl)
  obtain ⟨piece, mem, rfl⟩ := List.mem_map.1 piece
  obtain up | down := List.mem_append.1 mem
  · obtain ⟨step, -, rfl⟩ := List.mem_map.1 up
    exact .inr (.inr (by simpa using here))
  · obtain ⟨component, dropped, rfl⟩ := List.mem_map.1 down
    exact mem_text_of_mem_components (List.mem_of_mem_drop dropped) here

theorem mem_rewriteInclude {literal : String} {found : IncludeMatch} {moved : Path} {c : Char}
    (h : c ∈ (rewriteInclude literal found moved).toList) : c ∈ moved.text.toList ∨ c = '/' ∨ c = '.' := by
  rw [rewriteInclude.eq_def] at h
  split at h
  · rw [String.toList_ofList] at h
    obtain ⟨d, mem, rfl⟩ := List.mem_map.1 h
    split
    · exact .inr (.inl rfl)
    · exact .inl mem
  · rename_i base
    dsimp only at h
    split at h
    · rw [String.toList_append] at h
      obtain dot | text := List.mem_append.1 h
      · exact .inr (by simpa [or_comm] using dot)
      · exact mem_relativeTo text
    · exact mem_relativeTo h

end Path

namespace IncludeArgument

/-- The quote of an argument is that of a string with a fixed text. -/
theorem isStringQuote_quote {ts : Tokens} {argument : IncludeArgument} {literal : String}
    (nonempty : argument.strings ≠ []) (spelled : argument.literal? ts = some literal) :
    IsStringQuote (argument.quote ts) := by
  obtain ⟨i, more, strings⟩ := List.exists_cons_of_ne_nil nonempty
  rw [literal?, strings, List.mapM_cons] at spelled
  cases value : stringValue? (ts.textAt i) with
  | none => simp [value] at spelled
  | some found =>
    obtain ⟨isQuote, text, -⟩ := stringValue?_eq_some_iff.1 value
    have first : argument.quote ts = found.2 := by
      rw [quote, strings, List.head?_cons, Option.bind_some, text, toList_quoted]
      rfl
    rwa [first]

theorem strings_ne_nil {ts : Tokens} {i : Nat} {argument : IncludeArgument} (accepted : at? ts i = some argument) :
    argument.strings ≠ [] := by
  obtain ⟨first, -, found, -⟩ := exists_first_last accepted
  intro empty
  rw [first?, empty] at found
  cases found

end IncludeArgument

namespace FileRename

variable {old new path : Path} {ts : Tokens} {i : Nat} {e : Edit}

/-- The new text has only characters of the new path, slashes and dots. -/
theorem mem_rewritten? {argument : IncludeArgument} {literal text : String} {confidence : Confidence} {dir : Path}
    (rewritten : rewritten? old new dir argument literal = some (text, confidence)) {c : Char}
    (h : c ∈ text.toList) : c ∈ new.text.toList ∨ c = '/' ∨ c = '.' := by
  rw [rewritten?] at rewritten
  split at rewritten
  · split at rewritten
    · obtain ⟨rfl, -⟩ := Prod.mk.inj (Option.some.inj rewritten)
      rw [String.toList_append] at h
      obtain slash | below := List.mem_append.1 h
      · exact .inr (.inl (by simpa using slash))
      · exact Path.mem_relativeTo below
    · cases rewritten
  · obtain ⟨found, -, same⟩ := Option.map_eq_some_iff.1 rewritten
    obtain ⟨rfl, -⟩ := Prod.mk.inj same
    exact Path.mem_rewriteInclude h

/-- An edit writes its text as it is, between the quotes of the first string. -/
theorem replacement_of_edit? {argument : IncludeArgument} {text : String} {confidence : Confidence}
    (h : edit? ts argument text confidence = some e) : e.replacement = quoted (argument.quote ts) text := by
  obtain ⟨first, -, h⟩ := Option.bind_eq_some_iff.1 h
  obtain ⟨last, -, h⟩ := Option.bind_eq_some_iff.1 h
  dsimp only at h
  split at h
  · cases h
    rfl
  · cases h

/-- In code in front of a semicolon, a replacement is one string, and that has a fixed text. -/
structure ReadsBack (replacement text : String) (quote : Char) : Prop where
  string (last : Option TokenKind) (rest : Bytes) : Reads ⟨true, last⟩ .stringLit replacement (byte ';' :: rest)
  value : stringValue? replacement = some (text, quote)

/-- **Edits of includes, read back.** The replacement in an include is the rewritten path text, as it is, between
the quotes of the old argument. In code in front of a semicolon it is read as one string just when that text may
stand between such quotes, and it has just this fixed text unless a variable stands in it. Both hold when
the new path has no backslash, no dollar sign and no such quote. -/
theorem edits_readBack (mem : e ∈ edits old new path ts i) :
    ∃ argument literal text confidence, IncludeArgument.at? ts i = some argument ∧ argument.literal? ts = some literal ∧
      rewritten? old new path.directory argument literal = some (text, confidence) ∧
      let quote := argument.quote ts
      IsStringQuote quote ∧ e.replacement = quoted quote text ∧
      (∀ last rest, Reads ⟨true, last⟩ .stringLit e.replacement (byte ';' :: rest) ↔ Quotable quote text.toList) ∧
      stringValue? e.replacement = (if quote = '"' ∧ '$' ∈ text.toList then none else some (text, quote)) ∧
      ((∀ c ∈ new.text.toList, c ≠ '\\' ∧ c ≠ '$' ∧ c ≠ quote) → ReadsBack e.replacement text quote) := by
  obtain ⟨argument, accepted, mem⟩ := Option.bind_eq_some_iff.1 (Option.mem_toList.1 mem)
  obtain ⟨literal, spelled, mem⟩ := Option.bind_eq_some_iff.1 mem
  obtain ⟨⟨text, confidence⟩, rewritten, edited⟩ := Option.bind_eq_some_iff.1 mem
  have isQuote := IncludeArgument.isStringQuote_quote (IncludeArgument.strings_ne_nil accepted) spelled
  have replacement := replacement_of_edit? edited
  have value : stringValue? (quoted (argument.quote ts) text) =
      if argument.quote ts = '"' ∧ '$' ∈ text.toList then none else some (text, argument.quote ts) :=
    stringValue?_quoted isQuote
  have reads (last : Option TokenKind) (rest : Bytes) :
      Reads ⟨true, last⟩ .stringLit (quoted (argument.quote ts) text) (byte ';' :: rest) ↔
        Quotable (argument.quote ts) text.toList :=
    reads_quoted_iff isQuote (by simp)
  refine ⟨argument, literal, text, confidence, accepted, spelled, rewritten, isQuote, replacement,
    replacement ▸ reads, replacement ▸ value, fun safe => ?_⟩
  have plain : ∀ c ∈ text.toList, c ≠ '\\' ∧ c ≠ '$' ∧ c ≠ argument.quote ts := by
    intro c here
    have quotes : '/' ≠ argument.quote ts ∧ '.' ≠ argument.quote ts := by
      obtain quote | quote := isQuote <;> rw [quote] <;> decide
    obtain old | rfl | rfl := mem_rewritten? rewritten here
    · exact safe c old
    · exact ⟨by decide, by decide, quotes.1⟩
    · exact ⟨by decide, by decide, quotes.2⟩
  rw [replacement]
  refine ⟨fun last rest => (reads last rest).2 (.of_plain fun c here => ⟨(plain c here).1, (plain c here).2.2⟩), ?_⟩
  rw [value, if_neg]
  exact fun interpolated => (plain _ interpolated.2).2.1 rfl

/-- An apostrophe in the new name does no harm between double quotes. -/
theorem edits_readBack_apostrophe :
    let ts := Lexer.tokenize (encode "<?php require(\"./a.php\");")
    let e : Edit := ⟨1, 15, 9, "\"./lib/it's.php\"", .high⟩
    e ∈ edits (.ofText "/p/a.php") (.ofText "/p/lib/it's.php") (.ofText "/p/main.php") ts 2 ∧
      ∃ text, e.replacement = quoted '"' text ∧ ReadsBack e.replacement text '"' := by
  intro ts e
  have mem : e ∈ edits (.ofText "/p/a.php") (.ofText "/p/lib/it's.php") (.ofText "/p/main.php") ts 2 := by decide +kernel
  have known : IncludeArgument.at? ts 2 = some ⟨[4], false⟩ := by decide +kernel
  have double : IncludeArgument.quote ⟨[4], false⟩ ts = '"' := by decide +kernel
  obtain ⟨argument, -, text, -, accepted, -, -, -, replacement, -, -, safe⟩ := edits_readBack mem
  obtain rfl : ⟨[4], false⟩ = argument := Option.some.inj (known.symm.trans accepted)
  rw [double] at replacement safe
  exact ⟨mem, text, replacement, safe (by simp)⟩

/-- An apostrophe in the new name ends the string, and a dollar sign between double quotes leaves it without a
fixed text. -/
theorem edits_notReadBack :
    let single := Lexer.tokenize (encode "<?php include 'a.php';")
    let double := Lexer.tokenize (encode "<?php include \"a.php\";")
    (edits (.ofText "/p/a.php") (.ofText "/p/it's.php") (.ofText "/p/main.php") single 2).map Edit.replacement =
        ["'it's.php'"] ∧
      (lexemesFrom ⟨true, some .kwInclude⟩ (encode "'it's.php';")).map (fun l => (l.kind, l.bytes)) =
        [(.stringLit, encode "'it'"), (.identifier, encode "s"), (.concat, encode "."), (.identifier, encode "php"),
          (.stringLit, encode "';")] ∧
      (edits (.ofText "/p/a.php") (.ofText "/p/$a.php") (.ofText "/p/main.php") double 2).map Edit.replacement =
        ["\"$a.php\""] ∧
      stringValue? "\"$a.php\"" = none := by
  decide +kernel

end FileRename

end PhpRename
