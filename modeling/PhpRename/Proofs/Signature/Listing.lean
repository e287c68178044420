import PhpRename.Token.Signature

/-!
# Reading parameter lists

A parameter list is read in one go, with what is known of the parameter at hand. Between two commas this is what the
tokens read so far tell (`Listing.Holds`), which every token preserves (`Listing.Holds.next`) and a comma begins anew
(`Listing.Holds.comma`). So the parameters are those of the pieces between commas, one by one (`parameters_eq_pieces`).
-/

set_option autoImplicit false

namespace PhpRename

/-- The tokens from `i` on and before `stop`, each with its index; a linked bracket group is left
out as a unit, an unlinked opener alone. -/
def Tokens.topLevel (ts : Tokens) (i stop : Nat) : List (Nat × Token) :=
  if h : i < ts.size ∧ i < stop then
    let t := ts[i]
    if t.kind.isOpener then topLevel ts (max i (t.matching.getD i) + 1) stop
    else (i, t) :: topLevel ts (i + 1) stop
  else []
termination_by ts.size - i

namespace Signature

/-- The pieces of a token list between commas. -/
def pieces : List (Nat × Token) → List (List (Nat × Token))
  | [] => [[]]
  | t :: rest =>
    if t.2.kind == .comma then [] :: pieces rest
    else
      match pieces rest with
      | [] => [[t]]
      | piece :: more => (t :: piece) :: more

/-- The tokens of a piece in front of its first variable. -/
def front (piece : List (Nat × Token)) : List (Nat × Token) := piece.takeWhile fun t => t.2.kind != .variableName

/-- The first variable of a piece. -/
def variableOf? (piece : List (Nat × Token)) : Option Nat :=
  (piece.find? fun t => t.2.kind == .variableName).map (·.1)

/-- The type that tokens spell. -/
def typeOf (tokens : List (Nat × Token)) : String :=
  String.join ((tokens.filter fun t => spellsType t.2.kind).map fun t => t.2.text)

/-- The first modifier among tokens. -/
def modifierOf? (tokens : List (Nat × Token)) : Option Nat := (tokens.find? fun t => promotes t.2.kind).map (·.1)

/-- The parameter that a piece declares: its first variable, with the type and the modifier in
front of it. -/
def parameter? (piece : List (Nat × Token)) : Option Parameter :=
  (variableOf? piece).map fun v => ⟨v, typeOf (front piece), modifierOf? (front piece)⟩

variable {l : Listing} {done : List Parameter} {piece tokens : List (Nat × Token)} {i : Nat} {t : Token}

/-! ## One more token of a piece -/

theorem exists_pieces (tokens : List (Nat × Token)) : ∃ first more, pieces tokens = first :: more := by
  cases tokens with
  | nil => exact ⟨[], [], rfl⟩
  | cons t rest =>
    rw [pieces]
    split
    · exact ⟨_, _, rfl⟩
    · split <;> exact ⟨_, _, rfl⟩

theorem variableOf?_append (piece : List (Nat × Token)) (i : Nat) (t : Token) :
    variableOf? (piece ++ [(i, t)]) = (variableOf? piece).or (if t.kind = .variableName then some i else none) := by
  rw [variableOf?, variableOf?, List.find?_append]
  cases piece.find? fun t => t.2.kind == .variableName with
  | some v => rfl
  | none => by_cases named : t.kind = .variableName <;> simp [named]

/-- The first variable of a piece, and what stands around it. -/
theorem exists_of_variableOf? {v : Nat} (found : variableOf? piece = some v) : ∃ before t rest,
    piece = before ++ (v, t) :: rest ∧ t.kind = .variableName ∧ ∀ a ∈ before, a.2.kind ≠ .variableName := by
  obtain ⟨⟨_, t⟩, here, rfl⟩ := Option.map_eq_some_iff.1 found
  obtain ⟨named, before, rest, rfl, others⟩ := List.find?_eq_some_iff_append.1 here
  exact ⟨before, t, rest, rfl, beq_iff_eq.1 named, fun a mem => bne_iff_ne.1 (others a mem)⟩

theorem front_append_variable {before rest : List (Nat × Token)} (others : ∀ a ∈ before, a.2.kind ≠ .variableName)
    (named : t.kind = .variableName) : front (before ++ (i, t) :: rest) = before := by
  rw [front, List.takeWhile_append_of_pos fun a mem => bne_iff_ne.2 (others a mem),
    List.takeWhile_cons_of_neg (by simp [named]), List.append_nil]

/-- Behind a variable the front of a piece does not grow. -/
theorem front_append_of_found {v : Nat} (found : variableOf? piece = some v) (u : Nat × Token) :
    front (piece ++ [u]) = front piece := by
  obtain ⟨before, t, rest, rfl, named, others⟩ := exists_of_variableOf? found
  rw [List.append_assoc, List.cons_append, front_append_variable others named, front_append_variable others named]

theorem variableOf?_eq_none_iff : variableOf? piece = none ↔ ∀ a ∈ piece, a.2.kind ≠ .variableName := by
  rw [variableOf?, Option.map_eq_none_iff, List.find?_eq_none]
  exact forall₂_congr fun a _ => not_congr beq_iff_eq

/-- Up to a variable all of a piece is its front. -/
theorem front_append_of_none (free : variableOf? piece = none) (i : Nat) (t : Token) :
    front (piece ++ [(i, t)]) = if t.kind = .variableName then piece else piece ++ [(i, t)] := by
  have others := variableOf?_eq_none_iff.1 free
  rw [front, List.takeWhile_append_of_pos fun a mem => bne_iff_ne.2 (others a mem)]
  by_cases named : t.kind = .variableName <;> simp [named]

theorem front_of_none (free : variableOf? piece = none) : front piece = piece := by
  have others := variableOf?_eq_none_iff.1 free
  rw [front, ← List.append_nil piece, List.takeWhile_append_of_pos fun a mem => bne_iff_ne.2 (others a mem),
    List.takeWhile_nil]

theorem typeOf_append (tokens : List (Nat × Token)) (i : Nat) (t : Token) :
    typeOf (tokens ++ [(i, t)]) = if spellsType t.kind then typeOf tokens ++ t.text else typeOf tokens := by
  rw [typeOf, typeOf, List.filter_append, List.map_append, String.join_append]
  by_cases spells : spellsType t.kind = true <;> simp [spells]

theorem modifierOf?_append (tokens : List (Nat × Token)) (i : Nat) (t : Token) :
    modifierOf? (tokens ++ [(i, t)]) = (modifierOf? tokens).or (if promotes t.kind then some i else none) := by
  rw [modifierOf?, modifierOf?, List.find?_append]
  cases tokens.find? fun t => promotes t.2.kind with
  | some v => rfl
  | none => by_cases modifier : promotes t.kind = true <;> simp [modifier]

/-- No modifier spells a part of a type. -/
theorem spellsType_of_promotes {k : TokenKind} (h : promotes k = true) : ¬ spellsType k = true := by
  cases k <;> first | exact Bool.false_ne_true | cases h

theorem filterMap_parameter?_cons (piece : List (Nat × Token)) (more : List (List (Nat × Token))) :
    (piece :: more).filterMap parameter? = (parameter? piece).toList ++ more.filterMap parameter? := by
  rw [List.filterMap_cons]
  cases parameter? piece <;> rfl

/-! ## The state of the reading -/

namespace Listing

/-- What is known is told by the pieces in front of the last comma and by the tokens behind it. -/
structure Holds (l : Listing) (done : List Parameter) (piece : List (Nat × Token)) : Prop where
  parameters : l.parameters = done
  found : l.found = variableOf? piece
  declared : l.declared = typeOf (front piece)
  promoted : l.promoted = modifierOf? (front piece)

theorem Holds.nil (done : List Parameter) : Holds { parameters := done } done [] := ⟨rfl, rfl, rfl, rfl⟩

/-- At the end of a piece its parameter is added. -/
theorem Holds.finished (h : Holds l done piece) : l.finished = done ++ (parameter? piece).toList := by
  rw [Listing.finished, parameter?, h.found, h.parameters, h.declared, h.promoted]
  cases variableOf? piece with
  | none => exact (List.append_nil done).symm
  | some v => rfl

theorem Holds.comma (h : Holds l done piece) (comma : t.kind = .comma) :
    Holds (l.next i t) (done ++ (parameter? piece).toList) [] := by
  rw [next, if_pos (beq_iff_eq.2 comma), h.finished]
  exact .nil _

/-- Behind the variable of a piece, its tokens tell nothing more. -/
theorem Holds.behind (h : Holds l done piece) (past : l.found.isSome = true) (u : Nat × Token) :
    Holds l done (piece ++ [u]) := by
  obtain ⟨v, found⟩ := Option.isSome_iff_exists.1 past
  have first : variableOf? piece = some v := h.found.symm.trans found
  have same := front_append_of_found first u
  exact ⟨h.parameters, by rw [found, variableOf?_append, first, Option.some_or], by rw [same, h.declared],
    by rw [same, h.promoted]⟩

/-- In front of it, what they tell depends on their kind. -/
theorem Holds.ahead (h : Holds l done piece) (fresh : ¬ l.found.isSome = true) (other : t.kind ≠ .comma) :
    Holds (l.next i t) done (piece ++ [(i, t)]) := by
  obtain ⟨parameters, found, declared, promoted⟩ := h
  have free : variableOf? piece = none := found.symm.trans (Option.not_isSome_iff_eq_none.1 fresh)
  rw [front_of_none free] at declared promoted
  rw [next, if_neg fun comma => other (beq_iff_eq.1 comma), if_neg fresh]
  by_cases named : t.kind = .variableName
  · have same : front (piece ++ [(i, t)]) = piece := by rw [front_append_of_none free, if_pos named]
    rw [if_pos (beq_iff_eq.2 named)]
    exact ⟨parameters, by rw [variableOf?_append, free, if_pos named, Option.none_or], by rw [same, declared],
      by rw [same, promoted]⟩
  · have grown : front (piece ++ [(i, t)]) = piece ++ [(i, t)] := by rw [front_append_of_none free, if_neg named]
    have still : l.found = variableOf? (piece ++ [(i, t)]) := by
      rw [found, variableOf?_append, free, if_neg named, Option.none_or]
    rw [if_neg fun same => named (beq_iff_eq.1 same)]
    by_cases modifier : promotes t.kind = true
    · have plain := spellsType_of_promotes modifier
      rw [if_pos modifier]
      exact ⟨parameters, still, by rw [grown, typeOf_append, if_neg plain, declared],
        by rw [grown, modifierOf?_append, if_pos modifier, promoted]⟩
    · have same : l.promoted = modifierOf? (front (piece ++ [(i, t)])) := by
        rw [grown, modifierOf?_append, if_neg modifier, Option.or_none, promoted]
      rw [if_neg modifier]
      by_cases spells : spellsType t.kind = true
      · rw [if_pos spells]
        exact ⟨parameters, still, by rw [grown, typeOf_append, if_pos spells, declared], same⟩
      · rw [if_neg spells]
        exact ⟨parameters, still, by rw [grown, typeOf_append, if_neg spells, declared], same⟩

/-- **One more token.** -/
theorem Holds.next (h : Holds l done piece) (other : t.kind ≠ .comma) :
    Holds (l.next i t) done (piece ++ [(i, t)]) := by
  by_cases past : l.found.isSome = true
  · rw [Listing.next, if_neg fun comma => other (beq_iff_eq.1 comma), if_pos past]
    exact h.behind past (i, t)
  · exact h.ahead past other

/-- **All tokens.** -/
theorem Holds.foldl (h : Holds l done piece) {first : List (Nat × Token)} {more : List (List (Nat × Token))}
    (cut : pieces tokens = first :: more) :
    (tokens.foldl (fun l p => l.next p.1 p.2) l).finished = done ++ ((piece ++ first) :: more).filterMap parameter? := by
  induction tokens generalizing l done piece first more with
  | nil =>
    obtain ⟨rfl, rfl⟩ := List.cons.inj cut
    rw [List.append_nil, List.foldl_nil, h.finished, filterMap_parameter?_cons, List.filterMap_nil, List.append_nil]
  | cons t rest ih =>
    obtain ⟨first', more', behind⟩ := exists_pieces rest
    rw [List.foldl_cons]
    by_cases comma : t.2.kind = .comma
    · rw [pieces, if_pos (beq_iff_eq.2 comma)] at cut
      obtain ⟨rfl, rfl⟩ := List.cons.inj cut
      rw [ih (h.comma comma) behind, List.append_nil, behind, List.nil_append, List.append_assoc,
        ← filterMap_parameter?_cons]
    · rw [pieces, if_neg fun same => comma (beq_iff_eq.1 same), behind] at cut
      obtain ⟨rfl, rfl⟩ := List.cons.inj cut
      rw [ih (h.next comma) behind, List.append_assoc]
      rfl

/-- The walk over groups as units, and what is known of the tokens that it meets. -/
theorem run_eq_foldl (l : Listing) (ts : Tokens) (i stop : Nat) :
    l.run ts i stop = (ts.topLevel i stop).foldl (fun l p => l.next p.1 p.2) l := by
  fun_induction Tokens.topLevel ts i stop generalizing l with
  | case1 i inside t opens ih => rw [run, dif_pos inside.symm, if_pos opens, ih]
  | case2 i inside t other ih => rw [run, dif_pos inside.symm, if_neg other, ih, List.foldl_cons]
  | case3 i outside => rw [run, dif_neg fun inside => outside inside.symm]; rfl

end Listing

/-- **Reading a parameter list.** The parameters are those that the pieces between the commas outside of groups
declare, in order. -/
theorem parameters_eq_pieces (ts : Tokens) (opening closing : Nat) :
    parameters ts opening closing = (pieces (ts.topLevel (opening + 1) closing)).filterMap parameter? := by
  obtain ⟨first, more, cut⟩ := exists_pieces (ts.topLevel (opening + 1) closing)
  rw [parameters, Listing.run_eq_foldl, (Listing.Holds.nil []).foldl cut, cut]
  rfl

end Signature

end PhpRename
