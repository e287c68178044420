import PhpRename.Proofs.Refactoring.Occurrence

/-!
# The edits of a token

A rename looks at the text of a token in three ways: for the name as a word anywhere in it, for a
qualified name that ends in the name, or for the name alone. Each time its edits are given by the
beginnings of the text after which the name stands (`Mentions`), and these never overlap. In a
source, each beginning is an occurrence.
-/

set_option autoImplicit false

namespace PhpRename

open Utf8 Lexer

/-! ## Beginnings of a text -/

/-- A name is found in a text after each of some beginnings, left to right and without overlap. -/
structure FoundAfter (name text : List Char) (beginnings : List (List Char)) : Prop where
  stands : ∀ b ∈ beginnings, b ++ name <+: text
  ordered : beginnings.Pairwise fun a b => a.length + name.length ≤ b.length

theorem FoundAfter.none (name text : List Char) : FoundAfter name text [] := ⟨by simp, .nil⟩

/-- One more character before the text stands before each beginning. -/
theorem FoundAfter.cons {name text : List Char} {beginnings : List (List Char)} (c : Char)
    (h : FoundAfter name text beginnings) : FoundAfter name (c :: text) (beginnings.map (c :: ·)) := by
  constructor
  · intro _ mem
    obtain ⟨b, hb, rfl⟩ := List.mem_map.1 mem
    exact List.cons_prefix_cons.2 ⟨rfl, h.stands b hb⟩
  · refine List.pairwise_map.2 (h.ordered.imp fun le => ?_)
    simp only [List.length_cons]
    omega

theorem FoundAfter.here {name text : List Char} {beginnings : List (List Char)}
    (h : FoundAfter name text beginnings) (starts : name <+: text)
    (later : ∀ b ∈ beginnings, name.length ≤ b.length) : FoundAfter name text ([] :: beginnings) := by
  constructor
  · intro b mem
    rcases List.mem_cons.1 mem with rfl | mem
    · exact starts
    · exact h.stands b mem
  · refine List.pairwise_cons.2 ⟨fun b hb => ?_, h.ordered⟩
    rw [List.length_nil, Nat.zero_add]
    exact later b hb

namespace WholeWord

/-- The offsets of the words of a text: each is the length of a beginning, and no word starts in
what is skipped. -/
theorem offsetsFrom_eq {name : List Char} (nonempty : name ≠ []) (before : Option Char) (offset skip : Nat)
    (cs : List Char) : ∃ beginnings,
      offsetsFrom name before offset skip cs = beginnings.map (fun b => offset + (encodeChars b).length) ∧
      (∀ b ∈ beginnings, skip ≤ b.length) ∧ FoundAfter name cs beginnings := by
  induction cs generalizing before offset skip with
  | nil =>
    have none : startsHere name before [] = false := by simp [startsHere, nonempty]
    exact ⟨[], by simp [offsetsFrom, none], by simp, .none name []⟩
  | cons c rest ih =>
    have shift : ∀ b, offset + c.utf8Size + (encodeChars b).length = offset + (encodeChars (c :: b)).length := by
      intro b
      rw [encodeChars_cons, List.length_append, String.length_utf8EncodeChar, Nat.add_assoc]
    rw [offsetsFrom]
    split
    next here =>
      obtain ⟨beginnings, offsets, skipped, found⟩ := ih (some c) (offset + c.utf8Size) (name.length - 1)
      obtain ⟨rfl, starts⟩ : skip = 0 ∧ startsHere name before (c :: rest) = true := by simpa using here
      simp only [startsHere, Bool.and_eq_true, List.isPrefixOf_iff_prefix] at starts
      have later : ∀ b ∈ beginnings.map (c :: ·), name.length ≤ b.length := by
        intro _ mem
        obtain ⟨b, hb, rfl⟩ := List.mem_map.1 mem
        have := skipped b hb
        rw [List.length_cons]
        omega
      refine ⟨[] :: beginnings.map (c :: ·), ?_, by simp, (found.cons c).here starts.1.1 later⟩
      rw [offsets, List.map_cons, List.map_map]
      simp only [Function.comp_def, shift]
      rfl
    · obtain ⟨beginnings, offsets, skipped, found⟩ := ih (some c) (offset + c.utf8Size) (skip - 1)
      refine ⟨beginnings.map (c :: ·), ?_, ?_, found.cons c⟩
      · rw [offsets, List.map_map]
        simp only [Function.comp_def, shift]
      · intro _ mem
        obtain ⟨b, hb, rfl⟩ := List.mem_map.1 mem
        have := skipped b hb
        rw [List.length_cons]
        omega

end WholeWord

/-- A name is what its short form has before it, and the short form. -/
theorem Text.exists_append_afterLast (sep : Char) (cs : List Char) : ∃ b, cs = b ++ afterLast sep cs := by
  refine ⟨(cs.reverse.dropWhile (· != sep)).reverse, ?_⟩
  rw [afterLast, ← List.reverse_append, List.takeWhile_append_dropWhile, List.reverse_reverse]

/-! ## Edits of a token -/

namespace Token

/-- The edit of a name in the text of a token, after a beginning of the text. -/
def editAfter (t : Token) (old new : String) (confidence : Confidence) (beginning : List Char) : Edit :=
  let p := t.positionOf (encodeChars beginning).length
  ⟨p.line, p.column, (encode old).length, new, confidence⟩

/-- Edits of a token that put a new name in the place of an old one. -/
def Mentions (t : Token) (old new : String) (es : List Edit) : Prop :=
  ∃ confidence beginnings, es = beginnings.map (t.editAfter old new confidence) ∧
    FoundAfter old.toList t.text.toList beginnings

theorem Mentions.nil (t : Token) (old new : String) : t.Mentions old new [] :=
  ⟨.high, [], rfl, .none ..⟩

theorem Mentions.single {t : Token} {old : String} (new : String) (confidence : Confidence) {b : List Char}
    (stands : b ++ old.toList <+: t.text.toList) : t.Mentions old new [t.editAfter old new confidence b] :=
  ⟨confidence, [b], rfl, by simpa using stands, List.pairwise_singleton ..⟩

theorem positionOf_zero (t : Token) : t.positionOf 0 = t.position := by
  rw [positionOf, Nat.zero_sub]
  rfl

theorem editAfter_nil (t : Token) (old new : String) (confidence : Confidence) : t.editAfter old new confidence [] =
    ⟨t.position.line, t.position.column, (encode old).length, new, confidence⟩ := by
  rw [editAfter, show (encodeChars []).length = 0 from rfl, positionOf_zero]

theorem positionOf_of_notMem {t : Token} (line : 0x0a ∉ encode t.text) {k : Nat} (hk : k ≤ t.byteSize) :
    t.positionOf k = ⟨t.position.line, t.position.column + k⟩ := by
  have no : 0x0a ∉ (encode t.text).take k := fun h => line (List.mem_of_mem_take h)
  rw [byteSize] at hk
  rw [positionOf, Position.after_of_notMem _ no, List.length_take, Nat.min_eq_left hk, Nat.sub_eq_zero_of_le hk]
  rfl

end Token

/-! ## Renames -/

variable {old new : String} {ts : Tokens} {i : Nat} {t : Token}

theorem ClassRename.editName_eq (line : 0x0a ∉ encode t.text) {b : List Char} (split : t.text.toList = b ++ old.toList) :
    ClassRename.editName new t old = t.editAfter old new .high b := by
  have size : t.byteSize = (encodeChars b).length + (encode old).length := by
    rw [Token.byteSize, encode, split, encodeChars_append, List.length_append]
    rfl
  rw [ClassRename.editName, Token.editAfter, Token.positionOf_of_notMem line (by omega), size, Nat.add_sub_cancel]

theorem ClassRename.edits_mentions (named : old.toList ≠ []) (h : ts[i]? = some t)
    (line : t.kind = .identifier → 0x0a ∉ encode t.text) : t.Mentions old new (ClassRename.edits old new ts i) := by
  have mentions : t.Mentions old new (ClassRename.editMentions old new t) := by
    obtain ⟨beginnings, offsets, -, found⟩ := WholeWord.offsetsFrom_eq named none 0 0 t.text.toList
    refine ⟨.low, beginnings, ?_, found⟩
    rw [ClassRename.editMentions, WholeWord.offsets, offsets, List.map_map]
    simp only [Function.comp_def, Nat.zero_add]
    rfl
  rw [ClassRename.edits, h]
  simp only
  split
  next kind =>
    split
    next refers =>
      have short : Text.afterLast '\\' t.text.toList = old.toList := by
        have same : Name.short t.text = old := by
          simp only [Bool.and_eq_true, beq_iff_eq] at refers
          exact refers.1
        rw [← same, Name.short, String.toList_ofList]
      obtain ⟨b, split⟩ := Text.exists_append_afterLast '\\' t.text.toList
      rw [short] at split
      rw [editName_eq (line kind) split]
      exact .single new .high (split ▸ List.prefix_refl _)
    · exact .nil t old new
  · exact mentions
  · exact mentions
  · exact mentions
  · exact mentions
  · exact .nil t old new

theorem MethodRename.edits_mentions (cls : String) {r : Resolver} (h : r.tokens[i]? = some t) :
    t.Mentions old new (MethodRename.edits cls old new r i) := by
  rw [MethodRename.edits, h]
  simp only
  split
  next named =>
    obtain ⟨-, rfl⟩ : t.kind = .identifier ∧ t.text = old := by simpa using named
    cases MethodRename.confidence? (Name.short cls) r i with
    | none => exact .nil t t.text new
    | some confidence =>
      have whole : [] ++ t.text.toList <+: t.text.toList := List.prefix_refl _
      have mentions := Token.Mentions.single new confidence whole
      rw [Token.editAfter_nil] at mentions
      exact mentions
  · exact .nil t old new

/-! ## Occurrences in a source -/

theorem Token.positionOf_of_prefix {b : List Char} (h : b <+: t.text.toList) :
    t.positionOf (encodeChars b).length = t.position.after (encodeChars b) := by
  obtain ⟨rest, split⟩ := h
  have text : encode t.text = encodeChars b ++ encodeChars rest := by rw [encode, ← split, encodeChars_append]
  have fits : (encodeChars b).length ≤ (encode t.text).length := by
    rw [text, List.length_append]
    omega
  rw [positionOf, Nat.sub_eq_zero_of_le fits, text, List.take_left]
  rfl

namespace Occurrence

/-- The occurrence of a name in the span of a token, after a beginning of the token's text. -/
def after (i : Nat) (span : Bytes) (name : String) (beginning : List Char) : Occurrence :=
  ⟨i, (cut span).take beginning.length, ((cut span).drop beginning.length).take name.toList.length⟩

variable {source : Bytes} {l : Lexeme} {b : List Char}

theorem shown_after (token : IsToken source i t l) (stands : b ++ old.toList <+: t.text.toList) :
    (after i l.bytes old b).before.map Piece.shown = b ∧ (after i l.bytes old b).found.map Piece.shown = old.toList := by
  obtain ⟨rest, text⟩ := stands
  rw [token.text, toList_decodeLossy, List.append_assoc] at text
  rw [after, List.map_take, List.map_take, List.map_drop, ← text, List.take_left, List.drop_left, List.take_left]
  exact ⟨rfl, rfl⟩

theorem shows_after (token : IsToken source i t l) (stands : b ++ old.toList <+: t.text.toList) :
    (after i l.bytes old b).Shows source old := by
  refine ⟨⟨l.bytes, ((cut l.bytes).drop b.length).drop old.toList.length, token.span, ?_⟩, (shown_after token stands).2⟩
  rw [after, List.append_assoc, List.take_append_drop, List.take_append_drop]

/-- The edit after a beginning is proposed for the occurrence there. -/
theorem proposed_after (token : IsToken source i t l) (stands : b ++ old.toList <+: t.text.toList) (new : String)
    (confidence : Confidence) :
    (after i l.bytes old b).Proposed source old new (t.editAfter old new confidence b) := by
  have shows := shows_after token stands
  have before : (after i l.bytes old b).before.map Piece.shown = b := (shown_after token stands).1
  have start : t.position.after ((after i l.bytes old b).before.flatMap Piece.bytes) =
      Position.ofOffset source ((after i l.bytes old b).start source) := by
    have split : l.bytes = (after i l.bytes old b).before.flatMap Piece.bytes ++
        ((cut l.bytes).drop b.length).flatMap Piece.bytes :=
      eq_append_of_cut (List.take_append_drop b.length (cut l.bytes)).symm
    have taken := congrArg (List.take ((after i l.bytes old b).before.flatMap Piece.bytes).length) split
    have fits := congrArg List.length split
    rw [List.take_left] at taken
    rw [List.length_append] at fits
    rw [← taken, token.after_take (by omega), Position.start_after_take]
    rfl
  have place : t.positionOf (encodeChars b).length =
      ⟨(Position.ofOffset source ((after i l.bytes old b).start source)).line,
        (Position.ofOffset source ((after i l.bytes old b).start source)).column + drift (after i l.bytes old b).before⟩ := by
    rw [Token.positionOf_of_prefix ((List.prefix_append _ _).trans stands), ← start]
    conv => lhs; rw [← before]
    exact after_shown _ _ fun p hp => shows.isPiece p (List.mem_append_left _ hp)
  refine ⟨shows, ?_, ?_, rfl, rfl⟩
  · rw [Token.editAfter, place]
  · rw [Token.editAfter, place]

/-- Of two occurrences in a token the first stops before the second starts. -/
theorem stop_le_start_after (span : Bytes) {a : List Char} (ordered : a.length + old.toList.length ≤ b.length) :
    (after i span old a).stop source ≤ (after i span old b).start source := by
  have first : (cut span).take (a.length + old.toList.length) =
      (after i span old a).before ++ (after i span old a).found := List.take_add ..
  have second : (after i span old b).before = (cut span).take (a.length + old.toList.length) ++
      ((cut span).drop (a.length + old.toList.length)).take (b.length - (a.length + old.toList.length)) := by
    rw [← List.take_add, Nat.add_sub_cancel' ordered]
    rfl
  rw [stop, start, start, second, first]
  simp only [List.flatMap_append, List.length_append, after]
  omega

/-- The first edit is proposed for an occurrence that stops before that of the second starts. -/
def Behind (source : Bytes) (old new : String) (e e' : Edit) : Prop :=
  ∃ o o' : Occurrence, o.Proposed source old new e ∧ o'.Proposed source old new e' ∧ o.stop source ≤ o'.start source

theorem proposed_of_mentions {es : List Edit} (token : IsToken source i t l) (h : t.Mentions old new es) :
    ∀ e ∈ es, ∃ o : Occurrence, o.token = i ∧ o.Proposed source old new e := by
  obtain ⟨confidence, beginnings, rfl, found⟩ := h
  intro e he
  obtain ⟨b, hb, rfl⟩ := List.mem_map.1 he
  exact ⟨after i l.bytes old b, rfl, proposed_after token (found.stands b hb) new confidence⟩

theorem behind_of_mentions {es : List Edit} (token : IsToken source i t l) (h : t.Mentions old new es) :
    es.Pairwise (Behind source old new) := by
  obtain ⟨confidence, beginnings, rfl, found⟩ := h
  refine List.pairwise_map.2 (found.ordered.imp_of_mem fun {a b} ha hb ordered => ?_)
  exact ⟨after i l.bytes old a, after i l.bytes old b, proposed_after token (found.stands a ha) new confidence,
    proposed_after token (found.stands b hb) new confidence, stop_le_start_after l.bytes ordered⟩

/-- Occurrences of different tokens follow one another as the tokens do. -/
theorem Proposed.behind {o o' : Occurrence} {e e' : Edit} (h : o.Proposed source old new e)
    (h' : o'.Proposed source old new e') (tokens : o.token < o'.token) : Behind source old new e e' := by
  refine ⟨o, o', h, h', ?_⟩
  calc o.stop source ≤ spanStart source (o.token + 1) := h.shows.stop_le
    _ ≤ spanStart source o'.token := spanStart_mono tokens
    _ ≤ o'.start source := Nat.le_add_right _ _

end Occurrence

/-! ## Proposals of a file -/

namespace Refactoring

/-- The old and the new name of a refactoring that renames a class or a method. -/
def names? : Refactoring → Option (String × String)
  | renameClass old new => some (old, new)
  | renameMethod _ old new => some (old, new)
  | renameFile .. => none

variable {refactoring : Refactoring} {source : Bytes} {r : Resolver}

/-- Identifiers are of one line, also as they are shown. -/
theorem lineFeed_notMem_text {l : Lexeme} (token : IsToken source i t l) (kind : t.kind = .identifier) :
    0x0a ∉ encode t.text := by
  have bytes : 0x0a ∉ l.bytes := lineFeed_notMem_of_identifier l token.mem (token.kind ▸ kind)
  rw [token.text, encode, toList_decodeLossy]
  intro mem
  obtain ⟨c, hc, mem⟩ := List.mem_flatMap.1 mem
  obtain ⟨p, hp, rfl⟩ := List.mem_map.1 hc
  by_cases feed : p.shown = '\n'
  · apply bytes
    rw [← flatMap_cut l.bytes]
    refine List.mem_flatMap.2 ⟨p, hp, ?_⟩
    rw [(isPiece_of_mem_cut hp).bytes_lineFeed feed]
    exact List.mem_singleton.2 rfl
  · exact lineFeed_notMem_encode feed mem

theorem edits_mentions {l : Lexeme} (names : refactoring.names? = some (old, new)) (named : old.toList ≠ [])
    (file : r.tokens = tokenize source) (h : (tokenize source)[i]? = some t) (token : IsToken source i t l) :
    t.Mentions old new (refactoring.edits r i) := by
  cases refactoring with
  | renameClass a b =>
    cases names
    rw [edits, file]
    exact ClassRename.edits_mentions named h (lineFeed_notMem_text token)
  | renameMethod cls a b =>
    cases names
    rw [← file] at h
    exact MethodRename.edits_mentions cls h
  | renameFile a b => cases names

/-- The edits of a token are proposed for occurrences in it, one behind the other. -/
theorem edits_proposed (names : refactoring.names? = some (old, new)) (named : old.toList ≠ [])
    (file : r.tokens = tokenize source) (i : Nat) :
    (∀ e ∈ refactoring.edits r i, ∃ o : Occurrence, o.token = i ∧ o.Proposed source old new e) ∧
      (refactoring.edits r i).Pairwise (Occurrence.Behind source old new) := by
  cases h : (tokenize source)[i]? with
  | none =>
    have none : refactoring.edits r i = [] := by
      cases refactoring with
      | renameClass => simp [edits, ClassRename.edits, file, h]
      | renameMethod => simp [edits, MethodRename.edits, file, h]
      | renameFile => cases names
    rw [none]
    exact ⟨by simp, .nil⟩
  | some t =>
    obtain ⟨l, token⟩ := exists_isToken h
    have mentions := edits_mentions names named file h token
    exact ⟨Occurrence.proposed_of_mentions token mentions, Occurrence.behind_of_mentions token mentions⟩

/-- **Proposals stand for occurrences**: every proposed edit of a file stands for an occurrence of
the old name, and these follow one another without overlap. -/
theorem proposals_proposed (names : refactoring.names? = some (old, new)) (named : old.toList ≠ [])
    (file : r.tokens = tokenize source) (n : Nat) :
    (∀ e ∈ refactoring.proposals r n, ∃ o : Occurrence, o.Proposed source old new e) ∧
      (refactoring.proposals r n).Pairwise (Occurrence.Behind source old new) := by
  have each := fun i => edits_proposed names named ((learns_learned r (i + 1)).tokens.trans file) i
  constructor
  · intro e he
    obtain ⟨i, -, he⟩ := List.mem_flatMap.1 he
    obtain ⟨o, -, proposed⟩ := (each i).1 e he
    exact ⟨o, proposed⟩
  · refine List.pairwise_flatMap.2 ⟨fun i _ => (each i).2, List.pairwise_lt_range.imp fun {i j} lt e he e' he' => ?_⟩
    obtain ⟨o, rfl, proposed⟩ := (each i).1 e he
    obtain ⟨o', rfl, proposed'⟩ := (each j).1 e' he'
    exact proposed.behind proposed' lt

end Refactoring

end PhpRename
