import PhpRename.Proofs.Refactoring.Rename
import PhpRename.Proofs.Refactoring.Whole
import PhpRename.Token.Signature

/-!
# The names that a method rename writes

A method may have a reserved word for its name: behind an access operator and behind `function` the lexer takes every
word for a plain name. The edits of a rename put the new name in such places, and then it is a name again and its
declaration is found. The lexer does not look past the `&` of a function that returns a reference, though the rename
does: there a reserved word stays one, and its declaration has no name any more.
-/

set_option autoImplicit false

namespace PhpRename

open Utf8 Lexer

namespace MethodRename

/-! ## Where the name of a method stands -/

/-- What stands in front of the name of a method: an access operator of a call, or the word `function`, directly or
with the `&` of a returned reference between. -/
inductive Site (ts : Tokens) (i : Nat) : Prop where
  | called {operator : Nat} {kind : TokenKind} (before : ts.prevSignificant? i = some operator)
      (token : ts.kindAt? operator = some kind) (access : kind.isAccess = true)
      (call : (ts.nextSignificant? i).any (ts.isAt .openParen) = true) : Site ts i
  | declared {f : Nat} (before : ts.prevSignificant? i = some f) (function : ts.kindAt? f = some .kwFunction) :
      Site ts i
  | reference {a f : Nat} (before : ts.prevSignificant? i = some a) (mark : ts.kindAt? a = some .ampersand)
      (front : ts.prevSignificant? a = some f) (function : ts.kindAt? f = some .kwFunction) : Site ts i

/-- Whether an `&` stands in front of the name at `i`. -/
def byReference (ts : Tokens) (i : Nat) : Bool := (ts.prevSignificant? i).any (ts.isAt .ampersand)

theorem previous?_cases {ts : Tokens} {i p : Nat} (h : previous? ts i = some p) :
    ts.prevSignificant? i = some p ∨
      ∃ a, ts.prevSignificant? i = some a ∧ ts.kindAt? a = some .ampersand ∧ ts.prevSignificant? a = some p ∧
        ts.kindAt? p = some .kwFunction := by
  rw [previous?, Option.bind_eq_bind, Option.bind_eq_some_iff] at h
  obtain ⟨a, before, h⟩ := h
  split at h
  next mark =>
    rw [Option.some.injEq] at h
    cases front : (ts.prevSignificant? a).filter (ts.isAt .kwFunction) with
    | none =>
      rw [front] at h
      obtain rfl : a = p := h
      exact .inl before
    | some f =>
      rw [front] at h
      obtain rfl : f = p := h
      obtain ⟨found, function⟩ := Option.filter_eq_some_iff.1 front
      exact .inr ⟨a, before, eq_of_beq mark, found, eq_of_beq function⟩
  next =>
    obtain rfl := Option.some.inj h
    exact .inl before

/-- Edits are proposed where the name of a method stands, and nowhere else. -/
theorem site_of_confidence? {cls : String} {r : Resolver} {i : Nat} {confidence : Confidence}
    (h : confidence? cls r i = some confidence) : Site r.tokens i := by
  rw [confidence?, Option.bind_eq_bind, Option.bind_eq_some_iff] at h
  obtain ⟨p, previous, h⟩ := h
  rw [Option.bind_eq_bind, Option.bind_eq_some_iff] at h
  obtain ⟨kind, token, h⟩ := h
  obtain before | ⟨a, before, mark, front, function⟩ := previous?_cases previous
  · split at h
    next function => exact .declared before (by rw [token, eq_of_beq function])
    next =>
      split at h
      next call =>
        rw [Bool.and_eq_true] at call
        exact .called before token call.1 call.2
      next => cases h
  · exact .reference before mark front function

namespace Site

variable {ts : Tokens} {i : Nat}

/-- The significant token in front of the name of a method is neither a number nor an open tag. -/
theorem exists_before (h : Site ts i) : ∃ p kind, ts.prevSignificant? i = some p ∧ ts.kindAt? p = some kind ∧
    (forcesName kind = true ∧ byReference ts i = false ∨ kind = .ampersand ∧ byReference ts i = true) := by
  have operators : ∀ k : TokenKind, k.isAccess = true → forcesName k = true ∧ (k == .ampersand) = false := by
    intro k access
    cases k with
    | arrow | doubleColon => exact ⟨rfl, by decide⟩
    | _ => cases access
  cases h with
  | called before token access call =>
    refine ⟨_, _, before, token, .inl ?_⟩
    rw [byReference, before, Option.any_some, Tokens.isAt_eq token]
    exact operators _ access
  | declared before function =>
    refine ⟨_, _, before, function, .inl ⟨rfl, ?_⟩⟩
    rw [byReference, before, Option.any_some, Tokens.isAt_eq function]
    rfl
  | reference before mark front function =>
    refine ⟨_, _, before, mark, .inr ⟨rfl, ?_⟩⟩
    rw [byReference, before, Option.any_some, Tokens.isAt_eq mark]
    rfl

/-- Nothing in front of the name of a method could go on with it. -/
theorem free (h : Site ts i) (name : ts.kindAt? i = some .identifier) : Edit.Free ts i := by
  obtain ⟨p, kind, before, token, front⟩ := h.exists_before
  have other : ∀ k, k.isTrivia = false → forcesName k = false → k ≠ .ampersand →
      ∀ h, i = h + 1 → ts.kindAt? h ≠ some k := by
    rintro k loud plain noMark h rfl here
    rw [Tokens.prevSignificant?_here here loud] at before
    obtain rfl := Option.some.inj before
    obtain rfl := Option.some.inj (here.symm.trans token)
    obtain ⟨forced, -⟩ | ⟨mark, -⟩ := front
    · rw [plain] at forced
      cases forced
    · exact noMark mark
  exact ⟨name, other .number rfl rfl nofun, other .openTag rfl rfl nofun⟩

/-- A name behind an access operator is called; behind `function` it is the name of a declaration. -/
theorem called_or_declared (h : Site ts i) (name : ts.kindAt? i = some .identifier) :
    (∃ operator, ts.prevSignificant? i = some operator ∧ ts.kindSatisfies (·.isAccess) operator = true ∧
      (ts.nextSignificant? i).any (ts.isAt .openParen) = true) ∨
      ∃ f, ts.kindAt? f = some .kwFunction ∧ Signature.nameIndex? ts f = some i := by
  have isName : ts.isAt .identifier i = true := by rw [Tokens.isAt_eq name]; rfl
  have inRange : ∀ f kind, ts.kindAt? f = some kind → ts.inRange? f = some f := by
    intro f kind token
    rw [Tokens.inRange?, if_pos (Tokens.kindAt?_eq_some_iff.1 token).1]
  cases h with
  | called before token access call =>
    refine .inl ⟨_, before, ?_, call⟩
    rw [Tokens.kindSatisfies_eq token, access]
  | declared before function =>
    have next := Tokens.nextSignificant?_of_prevSignificant? before name rfl
    have noMark : ts.isAt .ampersand i = false := by rw [Tokens.isAt_eq name]; rfl
    refine .inr ⟨_, function, ?_⟩
    simp only [Signature.nameIndex?, Tokens.declaredNameIndex?, inRange _ _ function, next, noMark, isName,
      Option.bind_eq_bind, Option.bind_some, Bool.false_eq_true, if_false, if_true]
  | @reference a f before mark front function =>
    have next := Tokens.nextSignificant?_of_prevSignificant? before name rfl
    have behind := Tokens.nextSignificant?_of_prevSignificant? front mark rfl
    have isMark : ts.isAt .ampersand a = true := by rw [Tokens.isAt_eq mark]; rfl
    refine .inr ⟨_, function, ?_⟩
    simp only [Signature.nameIndex?, Tokens.declaredNameIndex?, inRange _ _ function, behind, isMark, next, isName,
      Option.bind_eq_bind, Option.bind_some, if_true]

end Site

/-! ## What the lexer makes of the new name -/

variable {old new : String} {source : Bytes} {edits : List Edit}

/-- Edits that put a new name in the place of an old one where the name of a method stands. -/
structure PutsNames (old new : String) (edits : List Edit) (source : Bytes) : Prop where
  each : ∀ e ∈ edits, ∃ i, e.Replaces old new source i ∧ (tokenize source).kindAt? i = some .identifier ∧
    Site (tokenize source) i
  apart : edits.Pairwise Edit.Apart

/-- Whether an edit puts a reserved word behind an `&`, where the lexer takes it for no name. -/
def hides (edits : List Edit) (new : String) (ts : Tokens) (i : Nat) : Bool :=
  Edit.replacesAt edits ts i && byReference ts i && (reservedKind? new).isSome

/-- The kind that a token has once edits have put a new name: a reserved word behind an `&` has its own, and every other
token keeps the kind that it has. -/
def writtenKind (edits : List Edit) (new : String) (ts : Tokens) (i : Nat) (kind : TokenKind) : TokenKind :=
  if hides edits new ts i then (reservedKind? new).getD .identifier else kind

/-- Where `function` is put behind an `&`, the lexer takes it for the word, but a parenthesis follows it and no name. -/
def Followed (edits : List Edit) (new : String) (ts : Tokens) : Prop :=
  reservedKind? new ≠ some .kwFunction ∨
    ∀ i, Edit.replacesAt edits ts i = true → byReference ts i = true →
      (ts.nextSignificant? i).any (ts.isAt .openParen) = true

theorem hides_iff {ts : Tokens} {i : Nat} : hides edits new ts i = true ↔
    Edit.replacesAt edits ts i = true ∧ byReference ts i = true ∧ ∃ r, reservedKind? new = some r := by
  rw [hides, Bool.and_eq_true, Bool.and_eq_true, Option.isSome_iff_exists, and_assoc]

/-- What is not put behind an `&` keeps its kind. -/
theorem writtenKind_of_direct {ts : Tokens} {i : Nat} (direct : byReference ts i = false) (kind : TokenKind) :
    writtenKind edits new ts i kind = kind := by
  rw [writtenKind, hides, direct, Bool.and_false, Bool.false_and, if_neg Bool.false_ne_true]

theorem writtenKind_of_kept {ts : Tokens} {i : Nat} (kept : ¬ Edit.replacesAt edits ts i = true) (kind : TokenKind) :
    writtenKind edits new ts i kind = kind :=
  if_neg fun hidden => kept (hides_iff.1 hidden).1

/-- Behind an `&` a new name is a word like others. -/
theorem writtenKind_of_reference {ts : Tokens} {i : Nat} (put : Edit.replacesAt edits ts i = true)
    (mark : byReference ts i = true) :
    writtenKind edits new ts i .identifier = (reservedKind? new).getD .identifier := by
  rw [writtenKind, hides, put, mark]
  cases reservedKind? new <;> rfl

namespace PutsNames

theorem replaces (h : PutsNames old new edits source) : ∀ e ∈ edits, ∃ i, e.Replaces old new source i :=
  fun e mem => (h.each e mem).imp fun _ h => h.1

theorem span (h : PutsNames old new edits source) {i : Nat} (put : Edit.replacesAt edits (tokenize source) i = true) :
    (spans source)[i]? = some (encode old) := by
  obtain ⟨e, -, replaced⟩ := (Edit.replacesAt_iff h.replaces).1 put
  exact replaced.span

/-- Every token that is replaced is a plain name where the name of a method stands. -/
theorem site (h : PutsNames old new edits source) {i : Nat} (put : Edit.replacesAt edits (tokenize source) i = true) :
    (tokenize source).kindAt? i = some .identifier ∧ Site (tokenize source) i := by
  obtain ⟨e, mem, replaced⟩ := (Edit.replacesAt_iff h.replaces).1 put
  obtain ⟨j, again, site⟩ := h.each e mem
  obtain rfl := again.eq_of_key replaced.lt_size replaced.aims.key
  exact site

theorem reworded (h : PutsNames old new edits source) :
    Reworded old new none ((lexemes source).map Lexeme.pair) (Edit.written edits new source) :=
  Edit.reworded_written h.replaces fun _ put => (h.site put).2.free (h.site put).1

/-- What stands in front of a word forces a name as before, where all kinds up to there are told. -/
theorem forced_before (h : PutsNames old new edits source) (followed : Followed edits new (tokenize source))
    {ts' : Tokens} {i : Nat} {kind : TokenKind} (token : (tokenize source).kindAt? i = some kind)
    (word : isWord kind = true)
    (told : ∀ p < i, ∀ k, (tokenize source).kindAt? p = some k →
      ts'.kindAt? p = some (writtenKind edits new (tokenize source) p k)) :
    (((tokenize source).prevSignificant? i).bind ts'.kindAt?).any forcesName =
      (((tokenize source).prevSignificant? i).bind (tokenize source).kindAt?).any forcesName := by
  cases before : (tokenize source).prevSignificant? i with
  | none => rfl
  | some p =>
    obtain ⟨less, bound⟩ := Tokens.lt_of_prevSignificant? before
    have front := Tokens.kindAt?_eq_some_iff.2 ⟨bound, rfl⟩
    generalize (tokenize source)[p].kind = k at front
    rw [Option.bind_some, Option.bind_some, told p less k front, front, writtenKind]
    split
    next hidden =>
      obtain ⟨put, mark, r, reserved⟩ := hides_iff.1 hidden
      obtain rfl := Option.some.inj (front.symm.trans (h.site put).1)
      rw [reserved, Option.getD_some, Option.any_some, Option.any_some]
      -- A reserved word that forces names would be `function`, and then a parenthesis follows it.
      refine Bool.eq_false_iff.2 fun forced => ?_
      have isFunction := (of_reservedKind? reserved).2 forced
      have parenthesis := followed.resolve_left (fun other => other (by rw [reserved, isFunction])) p put mark
      have loud : kind.isTrivia = false := by cases kind <;> first | rfl | cases word
      rw [Tokens.nextSignificant?_of_prevSignificant? before token loud, Option.any_some, Tokens.isAt_eq token]
        at parenthesis
      rw [eq_of_beq parenthesis] at word
      cases word
    next => rfl

section

variable (h : PutsNames old new edits source) (isOld : Name.IsLabel old) (isNew : Name.IsLabel new)
include h isOld isNew

theorem broad_kindAt? (i : Nat) : ((tokenize (Edit.rewritten edits new source)).kindAt? i).map broad =
    ((tokenize source).kindAt? i).map broad :=
  broad_kindAt?_of_reworded isOld isNew h.reworded i

theorem spans_rewritten : spans (Edit.rewritten edits new source) = (Edit.written edits new source).map Prod.snd :=
  spans_of_reworded isOld isNew h.reworded

theorem span_written {i : Nat} {bytes : Bytes} (span : (spans source)[i]? = some bytes) :
    (spans (Edit.rewritten edits new source))[i]? =
      some (if Edit.replacesAt edits (tokenize source) i then encode new else bytes) := by
  rw [spans, List.getElem?_map] at span
  obtain ⟨l, found, rfl⟩ := Option.map_eq_some_iff.1 span
  rw [h.spans_rewritten isOld isNew, Edit.written, List.getElem?_map, List.getElem?_mapIdx, found]
  rfl

theorem exists_kind {i : Nat} {kind : TokenKind} (token : (tokenize source).kindAt? i = some kind) :
    ∃ kind', (tokenize (Edit.rewritten edits new source)).kindAt? i = some kind' ∧ broad kind' = broad kind := by
  have same := h.broad_kindAt? isOld isNew i
  rw [token, Option.map_some] at same
  exact Option.map_eq_some_iff.1 same

/-- A word is read as what stands in front of it says. -/
theorem kindAt?_word {i : Nat} {kind : TokenKind} (token : (tokenize source).kindAt? i = some kind)
    (word : isWord kind = true)
    (forced : (((tokenize source).prevSignificant? i).bind
        (tokenize (Edit.rewritten edits new source)).kindAt?).any forcesName =
      (((tokenize source).prevSignificant? i).bind (tokenize source).kindAt?).any forcesName) :
    (tokenize (Edit.rewritten edits new source)).kindAt? i = some (writtenKind edits new (tokenize source) i kind) := by
  obtain ⟨kind', token', alike⟩ := h.exists_kind isOld isNew token
  have bound : i < (spans source).length := by
    rw [← size_tokenize]
    exact (Tokens.kindAt?_eq_some_iff.1 token).1
  have span : (spans source)[i]? = some (spans source)[i] := List.getElem?_eq_getElem bound
  have was := wordKind_of_word token span word
  have is := wordKind_of_word token' (h.span_written isOld isNew span) ((isWord_of_broad alike).trans word)
  rw [prevSignificant?_of_broad (h.broad_kindAt? isOld isNew) i] at is
  by_cases put : Edit.replacesAt edits (tokenize source) i = true
  · obtain ⟨name, site⟩ := h.site put
    obtain rfl := Option.some.inj (token.symm.trans name)
    obtain ⟨p, k, before, front, stands⟩ := site.exists_before
    rw [before, Option.bind_some, Option.bind_some, front, Option.any_some] at forced
    rw [if_pos put, before, Option.bind_some] at is
    obtain ⟨forces, direct⟩ | ⟨rfl, mark⟩ := stands
    · rw [forces] at forced
      rw [token', is, wordKind_of_forcesName forced, writtenKind_of_direct direct]
    · rw [token', is, wordKind_of_plain forced isNew, writtenKind_of_reference put mark]
  · rw [if_neg put] at is
    rw [token', is, wordKind_congr forced, ← was, writtenKind_of_kept put]

/-- **The kinds of the tokens that are written.** They are the old ones, but for a reserved word behind an `&`. -/
theorem kindAt?_written (followed : Followed edits new (tokenize source)) (i : Nat) (kind : TokenKind)
    (token : (tokenize source).kindAt? i = some kind) :
    (tokenize (Edit.rewritten edits new source)).kindAt? i = some (writtenKind edits new (tokenize source) i kind) := by
  induction i using Nat.strong_induction_on generalizing kind with
  | _ i told =>
    cases word : isWord kind with
    | true => exact h.kindAt?_word isOld isNew token word (h.forced_before followed token word told)
    | false =>
      obtain ⟨kind', token', alike⟩ := h.exists_kind isOld isNew token
      have kept : ¬ Edit.replacesAt edits (tokenize source) i = true := by
        intro put
        obtain rfl := Option.some.inj (token.symm.trans (h.site put).1)
        cases word
      rw [token', eq_of_broad_of_noWord alike word, writtenKind_of_kept kept]

theorem size_written : (tokenize (Edit.rewritten edits new source)).size = (tokenize source).size := by
  rw [size_tokenize, size_tokenize, h.spans_rewritten isOld isNew, spans, Edit.written, List.length_map,
    List.length_map, List.length_mapIdx]

theorem isAt_identifier_written (followed : Followed edits new (tokenize source)) (i : Nat) :
    (tokenize (Edit.rewritten edits new source)).isAt .identifier i =
      ((tokenize source).isAt .identifier i && !hides edits new (tokenize source) i) := by
  cases token : (tokenize source).kindAt? i with
  | none =>
    have same := h.broad_kindAt? isOld isNew i
    rw [token] at same
    rw [Tokens.isAt, Tokens.isAt, token, Option.map_eq_none_iff.1 same]
    rfl
  | some kind =>
    rw [Tokens.isAt_eq token, Tokens.isAt_eq (h.kindAt?_written isOld isNew followed i kind token), writtenKind]
    cases hidden : hides edits new (tokenize source) i with
    | false => rw [if_neg Bool.false_ne_true, Bool.not_false, Bool.and_true]
    | true =>
      obtain ⟨-, -, r, reserved⟩ := hides_iff.1 hidden
      rw [if_pos rfl, reserved, Option.getD_some, beq_false_of_ne (of_reservedKind? reserved).1, Bool.not_true,
        Bool.and_false]

/-- A declaration has the name that it had, unless that is hidden. -/
theorem declaredNameIndex?_written (followed : Followed edits new (tokenize source)) (f : Nat) :
    (tokenize (Edit.rewritten edits new source)).declaredNameIndex? f =
      ((tokenize source).declaredNameIndex? f).filter fun i => !hides edits new (tokenize source) i := by
  have same := h.broad_kindAt? isOld isNew
  have last : ∀ n, (if ((tokenize source).isAt .identifier n && !hides edits new (tokenize source) n) then some n
      else none) = (if (tokenize source).isAt .identifier n then some n else none).filter
        fun i => !hides edits new (tokenize source) i := by
    intro n
    cases (tokenize source).isAt .identifier n <;> rfl
  simp only [Tokens.declaredNameIndex?, Tokens.inRange?, h.size_written isOld isNew, nextSignificant?_of_broad same,
    isAt_of_broad same .ampersand rfl, h.isAt_identifier_written isOld isNew followed, Option.bind_eq_bind]
  split
  next =>
    simp only [Option.bind_some]
    cases (tokenize source).nextSignificant? f with
    | none => rfl
    | some n =>
      simp only [Option.bind_some]
      split
      next =>
        cases (tokenize source).nextSignificant? n with
        | none => rfl
        | some m => exact last m
      next => exact last n
  next => rfl

end

end PutsNames

/-! ## What is written -/

/-- A source in which edits have given methods a new name: its tokens are the old ones, each that is replaced with the
new name. Every one of these is the name of a call or of a declaration; it is a plain name and its declaration finds
it, but where a reserved word is put behind an `&`. -/
structure WritesNames (old new : String) (edits : List Edit) (source out : Bytes) : Prop where
  size : (tokenize out).size = (tokenize source).size
  edited : ∀ e ∈ edits, ∃ t ∈ tokenize source, e.key = t.position
  texts : ∀ i < (tokenize source).size, (tokenize out).textAt i =
    if Edit.replacesAt edits (tokenize source) i then new else (tokenize source).textAt i
  kinds : ∀ (i : Nat) (kind : TokenKind), (tokenize source).kindAt? i = some kind →
    (tokenize out).kindAt? i = some (writtenKind edits new (tokenize source) i kind)
  sites : ∀ i, Edit.replacesAt edits (tokenize source) i = true →
    (tokenize source).kindAt? i = some .identifier ∧ (tokenize source).textAt i = old ∧
      ((∃ operator, (tokenize source).prevSignificant? i = some operator ∧
          (tokenize source).kindSatisfies (·.isAccess) operator = true ∧
          ((tokenize source).nextSignificant? i).any ((tokenize source).isAt .openParen) = true) ∨
        ∃ f, (tokenize source).kindAt? f = some .kwFunction ∧ Signature.nameIndex? (tokenize source) f = some i)
  names : ∀ f, Signature.nameIndex? (tokenize out) f =
    (Signature.nameIndex? (tokenize source) f).filter fun i => !hides edits new (tokenize source) i
  found : ∀ f i, Signature.nameIndex? (tokenize source) f = some i → Edit.replacesAt edits (tokenize source) i = true →
    (tokenize out).declaredName? f = if hides edits new (tokenize source) i then none else some new

theorem textAt_eq {source span : Bytes} {i : Nat} (h : (spans source)[i]? = some span) :
    (tokenize source).textAt i = decodeLossy span := by
  have bound : i < (tokenize source).size := by
    rw [size_tokenize]
    exact (List.getElem?_eq_some_iff.1 h).1
  obtain ⟨l, isToken⟩ := exists_isToken (Array.getElem?_eq_getElem bound)
  obtain rfl := Option.some.inj (h.symm.trans isToken.span)
  rw [Tokens.textAt, Array.getElem?_eq_getElem bound, ← isToken.text]
  rfl

namespace PutsNames

/-- What a mode leaves out takes nothing from the others. -/
theorem filter (h : PutsNames old new edits source) (p : Edit → Bool) : PutsNames old new (edits.filter p) source :=
  ⟨fun e mem => h.each e (List.mem_filter.1 mem).1, h.apart.filter p⟩

section

variable (h : PutsNames old new edits source) (isOld : Name.IsLabel old) (isNew : Name.IsLabel new)
include h isOld isNew

theorem textAt_written {i : Nat} (bound : i < (tokenize source).size) :
    (tokenize (Edit.rewritten edits new source)).textAt i =
      if Edit.replacesAt edits (tokenize source) i then new else (tokenize source).textAt i := by
  rw [size_tokenize] at bound
  have span : (spans source)[i]? = some (spans source)[i] := List.getElem?_eq_getElem bound
  rw [textAt_eq (h.span_written isOld isNew span), textAt_eq span]
  split
  next => exact decodeLossy_encode new
  next => rfl

/-- Edits that put names are carried out. -/
theorem applyAll : Edit.applyAll edits source = .ok (Edit.rewritten edits new source) := by
  have inside : ∀ e ∈ edits, e.LiesIn source := by
    intro e mem
    obtain ⟨i, replaced⟩ := h.replaces e mem
    exact replaced.aims.liesIn isOld.lineFeed_notMem isOld.firm
  have firms : ∀ e ∈ edits, Edit.Firm e.bytes := by
    intro e mem
    obtain ⟨i, replaced⟩ := h.replaces e mem
    rw [Edit.bytes, replaced.puts]
    exact isNew.firm
  rw [Edit.applyAll_eq_substitute inside h.apart firms, Edit.substitute_rewritten h.replaces isOld h.apart inside]

theorem writesNames (followed : Followed edits new (tokenize source)) :
    WritesNames old new edits source (Edit.rewritten edits new source) := by
  constructor
  case size => exact h.size_written isOld isNew
  case edited =>
    intro e mem
    obtain ⟨i, replaced⟩ := h.replaces e mem
    obtain ⟨l, isToken⟩ := exists_isToken (Array.getElem?_eq_getElem replaced.lt_size)
    refine ⟨_, Array.getElem_mem replaced.lt_size, ?_⟩
    rw [replaced.aims.key, isToken.position, Position.start_after_take]
  case texts => exact fun i bound => h.textAt_written isOld isNew bound
  case kinds => exact h.kindAt?_written isOld isNew followed
  case sites =>
    intro i put
    obtain ⟨name, site⟩ := h.site put
    refine ⟨name, ?_, site.called_or_declared name⟩
    rw [textAt_eq (h.span put), decodeLossy_encode]
  case names => exact h.declaredNameIndex?_written isOld isNew followed
  case found =>
    intro f i index put
    have bound : i < (tokenize source).size := by
      rw [size_tokenize]
      exact (List.getElem?_eq_some_iff.1 (h.span put)).1
    rw [Signature.nameIndex?] at index
    rw [Tokens.declaredName?, h.declaredNameIndex?_written isOld isNew followed, index, Option.filter_some]
    cases hides edits new (tokenize source) i with
    | true => rfl
    | false =>
      rw [Bool.not_false, if_pos rfl, Option.map_some, h.textAt_written isOld isNew bound, if_pos put,
        if_neg Bool.false_ne_true]

end

end PutsNames

/-! ## The edits of a method rename -/

/-- A name that stands in a source only with its own bytes. -/
def Spelt (name : String) (source : Bytes) : Prop := ∀ s ∈ spans source, decodeLossy s = name → s = encode name

/-- Ill-formed bytes show a replacement character. -/
theorem spelt_of_valid {name : String} (h : Valid source ∨ replacement ∉ name.toList) : Spelt name source := by
  rintro s mem rfl
  obtain valid | shown := h
  · obtain ⟨l, hl, rfl⟩ := List.mem_map.1 mem
    exact (valid_of_mem_lexemes valid l hl).encode_decodeLossy.symm
  · exact (encode_decodeLossy_of_notMem shown).symm

variable {cls : String} {r : Resolver}

/-- An edit of a token replaces it, where the name of a method stands. -/
theorem replaces_of_mem_edits (file : r.tokens = tokenize source) (spelt : Spelt old source) {i : Nat} {e : Edit}
    (mem : e ∈ MethodRename.edits cls old new r i) :
    e.Replaces old new source i ∧ (tokenize source).kindAt? i = some .identifier ∧ Site (tokenize source) i := by
  rw [MethodRename.edits] at mem
  cases token : r.tokens[i]? with
  | none =>
    rw [token] at mem
    cases mem
  | some t =>
    rw [token] at mem
    simp only at mem
    split at mem
    next here =>
      rw [Bool.and_eq_true, beq_iff_eq, beq_iff_eq] at here
      obtain ⟨kind, text⟩ := here
      obtain ⟨confidence, found, rfl⟩ := List.mem_map.1 mem
      have site := site_of_confidence? (Option.mem_toList.1 found)
      rw [file] at site token
      obtain ⟨l, isToken⟩ := exists_isToken token
      have bytes : l.bytes = encode old :=
        spelt l.bytes (List.mem_of_getElem? isToken.span) (by rw [← isToken.text, text])
      have span : (spans source)[i]? = some (encode old) := by rw [isToken.span, bytes]
      refine ⟨⟨span, ⟨?_, ?_, ?_⟩, rfl⟩, ?_, site⟩
      · rw [← Position.start_after_take, ← isToken.position]
        rfl
      · show t.byteSize = _
        rw [Token.byteSize, text]
      · rw [drop_spanStart span]
        exact List.prefix_append _ _
      · rw [Tokens.kindAt?, token, Option.map_some, kind]
    next => cases mem

theorem length_edits_le (cls old new : String) (r : Resolver) (i : Nat) :
    (MethodRename.edits cls old new r i).length ≤ 1 := by
  rw [MethodRename.edits]
  split
  next => exact Nat.zero_le 1
  next =>
    split
    next =>
      rw [List.length_map]
      exact Option.length_toList_le
    next => exact Nat.zero_le 1

/-- The proposals for a file put the new name where the name of a method stands. -/
theorem putsNames_proposals (cls new : String) (isOld : Name.IsLabel old) (file : r.tokens = tokenize source)
    (spelt : Spelt old source) (n : Nat) : PutsNames old new ((Refactoring.renameMethod cls old new).proposals r n) source := by
  have each : ∀ i, ∀ e ∈ (Refactoring.renameMethod cls old new).edits (Refactoring.learned r (i + 1)) i,
      e.Replaces old new source i ∧ (tokenize source).kindAt? i = some .identifier ∧ Site (tokenize source) i :=
    fun i e mem => replaces_of_mem_edits ((Refactoring.learns_learned r (i + 1)).tokens.trans file) spelt mem
  constructor
  · intro e mem
    obtain ⟨i, -, mem⟩ := List.mem_flatMap.1 mem
    exact ⟨i, each i e mem⟩
  · refine List.pairwise_flatMap.2 ⟨fun i _ => ?_, List.pairwise_lt_range.imp fun {i j} lt e he e' he' => ?_⟩
    · have one := length_edits_le cls old new (Refactoring.learned r (i + 1)) i
      show (MethodRename.edits cls old new (Refactoring.learned r (i + 1)) i).Pairwise Edit.Apart
      generalize MethodRename.edits cls old new (Refactoring.learned r (i + 1)) i = found at one
      obtain _ | ⟨e, _ | ⟨e', more⟩⟩ := found
      · exact .nil
      · exact List.pairwise_singleton ..
      · exact absurd one (by simp)
    · exact (each i e he).1.apart (each j e' he').1 lt isOld.encode_ne_nil

/-- The declaration in the class itself is edited. -/
theorem edits_of_declaration {i f : Nat} {t : Token} {owner : ScopeOwner} (token : r.tokens[i]? = some t)
    (kind : t.kind = .identifier) (previous : previous? r.tokens i = some f)
    (function : r.tokens.kindAt? f = some .kwFunction) (owned : t.bindingOwner? = some owner)
    (classLike : owner.kind.isClassLike = true) (named : r.tokens.declaredName? owner.index = some cls)
    (new : String) : MethodRename.edits cls t.text new r i =
      [⟨t.position.line, t.position.column, t.byteSize, new, .high⟩] := by
  have same : r.classes.isSubclassOf (Name.short cls) (Name.short cls) = true := by
    rw [Hierarchy.isSubclassOf, Hierarchy.reaches, if_pos ((Ascii.sameIgnoringCase_iff _ _).2 rfl)]
  have sure : confidence? (Name.short cls) r i = some .high := by
    simp only [confidence?, previous, function, declarationConfidence?, token, owned, named, same, Option.bind_eq_bind,
      Option.bind_some, Option.filter_some, classLike, beq_self_eq_true, if_true]
  simp only [MethodRename.edits, token, kind, beq_self_eq_true, Bool.and_self, if_true, sure, Option.toList_some,
    List.map_cons, List.map_nil]

theorem edits_of_textAt_ne {i : Nat} (other : r.tokens.textAt i ≠ old) : MethodRename.edits cls old new r i = [] := by
  rw [Tokens.textAt] at other
  rw [MethodRename.edits]
  split
  next => rfl
  next t token =>
    rw [token] at other
    have differs : (t.text == old) = false := beq_false_of_ne other
    rw [differs, Bool.and_false, if_neg Bool.false_ne_true]

/-- What is proposed where the old name is that of one token only. -/
theorem proposals_of_single {i n : Nat} (others : ∀ j < n, j ≠ i → r.tokens.textAt j ≠ old) :
    (Refactoring.renameMethod cls old new).proposals r n =
      if i < n then MethodRename.edits cls old new (Refactoring.learned r (i + 1)) i else [] := by
  induction n with
  | zero => rfl
  | succ n ih =>
    have visit : (Refactoring.renameMethod cls old new).edits (Refactoring.learned r (n + 1)) n =
      MethodRename.edits cls old new (Refactoring.learned r (n + 1)) n := rfl
    rw [Refactoring.proposals_succ, ih fun j less => others j (Nat.lt_succ_of_lt less), visit]
    obtain rfl | differs := Decidable.eq_or_ne n i
    · rw [if_neg (Nat.lt_irrefl n), if_pos (Nat.lt_succ_self n), List.nil_append]
    · have text := others n (Nat.lt_succ_self n) differs
      rw [← (Refactoring.learns_learned r (n + 1)).tokens] at text
      rw [edits_of_textAt_ne text, List.append_nil]
      have bound : i < n ↔ i < n + 1 := by omega
      rw [if_congr bound rfl rfl]

end MethodRename

namespace Refactoring

variable {cls old new : String} {sources : List (Path × Bytes)} {prepared : Refactoring} {tree : FileTree}

/-- The edits for a source whose one mention of the old name is a declaration in the class. -/
theorem permitted_of_declaration {path : Path} {source : Bytes} {i f : Nat} {t : Token} {owner : ScopeOwner}
    (others : ∀ j < (tokenize source).size, j ≠ i → (tokenize source).textAt j ≠ t.text)
    (token : (tokenize source)[i]? = some t) (kind : t.kind = .identifier)
    (previous : MethodRename.previous? (tokenize source) i = some f)
    (function : (tokenize source).kindAt? f = some .kwFunction) (owned : t.bindingOwner? = some owner)
    (classLike : owner.kind.isClassLike = true) (named : (tokenize source).declaredName? owner.index = some cls)
    (new : String) :
    ((renameMethod cls t.text new).scan (.ofSources [(path, source)])).permitted .conservative path =
      [⟨t.position.line, t.position.column, t.byteSize, new, .high⟩] := by
  obtain ⟨r, file, edits⟩ := permitted_scan (List.pairwise_singleton ..)
    (rfl : (renameMethod cls t.text new).initialChanges = {}) (List.mem_singleton.2 rfl : (path, source) ∈ _)
    .conservative
  have learned := (learns_learned r (i + 1)).tokens.trans file
  rw [← file] at others
  rw [← learned] at token previous function named
  rw [edits, MethodRename.proposals_of_single others, if_pos]
  · rw [MethodRename.edits_of_declaration token kind previous function owned classLike named]
    rfl
  · rw [file, ← learned]
    exact (Array.getElem?_eq_some_iff.1 token).1

/-- **A method rename writes names.** Whatever name it accepts and whichever edits a mode permits, they are carried out
for every source that spells the old name as it is, and each call and each declaration that is given the new name has
it as a plain name, reserved words included; the function at its declaration finds it. A reserved word behind the `&`
of a returned reference is the one exception: it stays reserved, and the function has no name. What follows such a
name may then be read in another way, too, if the name is `function`, so that this asks for a parenthesis behind it. -/
theorem scan_writesNames (distinct : sources.Pairwise fun a b => a.1.same b.1 = false)
    (accepted : (renameMethod cls old new).prepare tree = .ok prepared) {path : Path} {source : Bytes}
    (mem : (path, source) ∈ sources) (spelt : MethodRename.Spelt old source) (mode : EditMode)
    (followed : MethodRename.Followed ((prepared.scan (.ofSources sources)).permitted mode path) new
      (tokenize source)) :
    ∃ out, Edit.applyAll ((prepared.scan (.ofSources sources)).permitted mode path) source = .ok out ∧
      MethodRename.WritesNames old new ((prepared.scan (.ofSources sources)).permitted mode path) source out := by
  obtain ⟨-, label, free, rfl⟩ := prepare_renameMethod_iff.1 accepted
  have isOld := Name.labelFault?_eq_none_iff.1 label
  have isNew := Name.isLabel_of_methodFault? free
  obtain ⟨r, file, edits⟩ := permitted_scan distinct (rfl : (renameMethod cls old new).initialChanges = {}) mem mode
  rw [edits] at followed ⊢
  have puts := (MethodRename.putsNames_proposals cls new isOld file spelt r.tokens.size).filter
    (mode.permits ·.confidence)
  exact ⟨_, puts.applyAll isOld isNew, puts.writesNames isOld isNew followed⟩

/-- A reserved word for the name of a declaration. -/
theorem scan_writesNames_reserved :
    let source := encode "<?php class A { function bar() {} }\n"
    let edits := ((renameMethod "A" "bar" "print").scan (.ofSources [(.ofText "a.php", source)])).permitted
      .conservative (.ofText "a.php")
    edits = [⟨1, 26, 3, "print", .high⟩] ∧
      ∃ out, Edit.applyAll edits source = .ok out ∧ MethodRename.WritesNames "bar" "print" edits source out := by
  intro source edits
  have token : (tokenize source)[10]? = some ⟨.identifier, "bar", ⟨1, 26⟩, [⟨2, .classBody⟩], none, none⟩ := by
    decide +kernel
  have accepted : (renameMethod "A" "bar" "print").prepare {} = .ok (renameMethod "A" "bar" "print") :=
    prepare_renameMethod_iff.2 ⟨by decide +kernel, by decide +kernel, by decide +kernel, rfl⟩
  refine ⟨?_, ?_⟩
  · exact permitted_of_declaration (by decide +kernel) token rfl (f := 8) (by decide +kernel) (by decide +kernel) rfl rfl
      (by decide +kernel) "print"
  · exact scan_writesNames (List.pairwise_singleton ..) accepted (List.mem_singleton.2 rfl)
      (MethodRename.spelt_of_valid (.inl (valid_encode _))) .conservative (.inl (by decide +kernel))

/-- An accepted name that is a reserved word, put behind an `&`: the declaration has no name any more. -/
theorem reference_loses_name :
    let source := encode "<?php class A { function &bar() {} }\n"
    let out := encode "<?php class A { function &print() {} }\n"
    Name.accept Name.methodFault? "print" = .ok () ∧
      (renameMethod "A" "bar" "print").prepare {} = .ok (renameMethod "A" "bar" "print") ∧
      Edit.applyAll (((renameMethod "A" "bar" "print").scan (.ofSources [(.ofText "a.php", source)])).permitted
        .conservative (.ofText "a.php")) source = .ok out ∧
      Signature.nameIndex? (tokenize source) 8 = some 11 ∧ (tokenize source).declaredName? 8 = some "bar" ∧
      (tokenize out).textAt 11 = "print" ∧ (tokenize out).kindAt? 11 = some .reservedWord ∧
      Signature.nameIndex? (tokenize out) 8 = none ∧ (tokenize out).declaredName? 8 = none := by
  intro source out
  have token : (tokenize source)[11]? = some ⟨.identifier, "bar", ⟨1, 27⟩, [⟨2, .classBody⟩], none, none⟩ := by
    decide +kernel
  have edits : ((renameMethod "A" "bar" "print").scan (.ofSources [(.ofText "a.php", source)])).permitted
      .conservative (.ofText "a.php") = [⟨1, 27, 3, "print", .high⟩] :=
    permitted_of_declaration (by decide +kernel) token rfl (f := 8) (by decide +kernel) (by decide +kernel) rfl rfl
      (by decide +kernel) "print"
  refine ⟨by decide +kernel, ?_, ?_⟩
  · exact prepare_renameMethod_iff.2 ⟨by decide +kernel, by decide +kernel, by decide +kernel, rfl⟩
  · rw [edits]
    decide +kernel

end Refactoring

end PhpRename
