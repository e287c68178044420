import PhpRename.Include.Argument
import PhpRename.Proofs.Refactoring.Redirect
import PhpRename.Proofs.Token.Steps

/-!
# The grammar of include arguments

An include can be followed when its argument is `[__DIR__ .] string (. string)*`, with white space and comments
anywhere. `Concatenation` and `Spelling` are this grammar, `Region` says where the argument stands, and
`argument_iff` that the reading of its tokens, one by one, accepts what the grammar derives and nothing else.
-/

set_option autoImplicit false

namespace PhpRename

namespace IncludeArgument

/-! ## The grammar -/

/-- Strings with dots between them, each with its index and its text. -/
inductive Concatenation : List (Nat × Token) → List (Nat × String) → Prop where
  | single {i : Nat} {t : Token} {text : String} {quote : Char} (string : t.kind = .stringLit)
      (value : stringValue? t.text = some (text, quote)) : Concatenation [(i, t)] [(i, text)]
  | more {i j : Nat} {t dot : Token} {text : String} {quote : Char} {rest : List (Nat × Token)}
      {strings : List (Nat × String)} (string : t.kind = .stringLit) (value : stringValue? t.text = some (text, quote))
      (joined : dot.kind = .concat) (others : Concatenation rest strings) :
      Concatenation ((i, t) :: (j, dot) :: rest) ((i, text) :: strings)

/-- An argument, anchored or not, with the indices and the texts of its strings. -/
inductive Spelling : List (Nat × Token) → Bool → List (Nat × String) → Prop where
  | plain {tokens : List (Nat × Token)} {strings : List (Nat × String)} (strung : Concatenation tokens strings) :
      Spelling tokens false strings
  | anchored {i j : Nat} {t dot : Token} {rest : List (Nat × Token)} {strings : List (Nat × String)}
      (name : t.kind = .identifier) (anchor : Ascii.sameIgnoringCase t.text "__DIR__" = true)
      (joined : dot.kind = .concat) (strung : Concatenation rest strings) :
      Spelling ((i, t) :: (j, dot) :: rest) true strings

/-- The token that follows another, white space and comments apart. -/
structure Follows (ts : Tokens) (i first : Nat) (t : Token) : Prop where
  token : ts[first]? = some t
  behind : i < first
  significant : t.kind.isTrivia = false
  nearest : ∀ k u, ts[k]? = some u → i < k → k < first → u.kind.isTrivia = true

/-- Kinds that end a statement. -/
def Ends (k : TokenKind) : Prop := k = .semicolon ∨ k = .closeTag

/-- The indices between which the argument of an include stands: in the parentheses that follow it, else in front of
the next end of a statement. -/
inductive Region (ts : Tokens) (i : Nat) : Nat → Nat → Prop where
  | group {first close : Nat} {t : Token} (follows : Follows ts i first t) (paren : t.kind = .openParen)
      (linked : ts.Links first close) : Region ts i (first + 1) close
  | statement {first stop : Nat} {t e : Token} (follows : Follows ts i first t) (other : t.kind ≠ .openParen)
      (order : first ≤ stop) (token : ts[stop]? = some e) (ends : Ends e.kind)
      (nearest : ∀ k u, ts[k]? = some u → first ≤ k → k < stop → ¬ Ends u.kind) : Region ts i first stop

/-! ## The reader and the grammar -/

section

variable {ts : Tokens} {tokens : List (Nat × Token)} {strings : List (Nat × String)} {indices : List Nat}
  {a : IncludeArgument} {b : Bool}

theorem isFixed_iff {t : Token} :
    isFixed t = true ↔ t.kind = .stringLit ∧ ∃ text quote, stringValue? t.text = some (text, quote) := by
  rw [isFixed, Bool.and_eq_true, beq_iff_eq, Option.isSome_iff_exists, Prod.exists]

theorem concatenation?_of_concatenation (strung : Concatenation tokens strings) :
    concatenation? tokens = some (strings.map (·.1)) := by
  induction strung with
  | single string value => rw [concatenation?, if_pos (isFixed_iff.2 ⟨string, _, _, value⟩)]; rfl
  | more string value joined others ih =>
    rw [concatenation?, if_pos (Bool.and_eq_true_iff.2 ⟨isFixed_iff.2 ⟨string, _, _, value⟩, beq_iff_eq.2 joined⟩), ih]
    rfl

theorem exists_concatenation (h : concatenation? tokens = some indices) :
    ∃ strings, Concatenation tokens strings ∧ indices = strings.map (·.1) := by
  fun_induction concatenation? tokens generalizing indices with
  | case1 => cases h
  | case2 i t fixed =>
    obtain ⟨string, text, quote, value⟩ := isFixed_iff.1 fixed
    obtain rfl := Option.some.inj h
    exact ⟨[(i, text)], .single string value, rfl⟩
  | case3 => cases h
  | case4 i t j dot rest both ih =>
    obtain ⟨fixed, joined⟩ := Bool.and_eq_true_iff.1 both
    obtain ⟨string, text, quote, value⟩ := isFixed_iff.1 fixed
    obtain ⟨more, read, rfl⟩ := Option.map_eq_some_iff.1 h
    obtain ⟨strings, others, rfl⟩ := ih read
    exact ⟨(i, text) :: strings, .more string value (beq_iff_eq.1 joined) others, rfl⟩
  | case5 => cases h

/-- A concatenation starts with a string. -/
theorem Concatenation.head_kind (strung : Concatenation tokens strings) :
    ∃ i t rest, tokens = (i, t) :: rest ∧ t.kind = .stringLit := by
  cases strung with
  | single string value => exact ⟨_, _, _, rfl, string⟩
  | more string value joined others => exact ⟨_, _, _, rfl, string⟩

theorem isAnchor_iff {t : Token} :
    isAnchor t = true ↔ t.kind = .identifier ∧ Ascii.sameIgnoringCase t.text "__DIR__" = true := by
  rw [isAnchor, Bool.and_eq_true, beq_iff_eq]

theorem ofTokens?_of_spelling (spelling : Spelling tokens b strings) :
    ofTokens? tokens = some ⟨strings.map (·.1), b⟩ := by
  cases spelling with
  | plain strung =>
    obtain ⟨i, t, rest, rfl, string⟩ := strung.head_kind
    have read := concatenation?_of_concatenation strung
    have other : isAnchor t = false := by rw [isAnchor, string]; rfl
    cases rest with
    | nil => simp only [ofTokens?, read, Option.map_some]
    | cons dot rest => rw [ofTokens?, other, Bool.false_and, if_neg Bool.false_ne_true, read]; rfl
  | anchored name anchor joined strung =>
    rw [ofTokens?, if_pos (Bool.and_eq_true_iff.2 ⟨isAnchor_iff.2 ⟨name, anchor⟩, beq_iff_eq.2 joined⟩),
      concatenation?_of_concatenation strung]
    rfl

theorem exists_spelling (h : ofTokens? tokens = some a) :
    ∃ strings, Spelling tokens a.anchored strings ∧ a.strings = strings.map (·.1) := by
  rw [ofTokens?.eq_def] at h
  split at h
  · split at h
    next both =>
      obtain ⟨anchor, joined⟩ := Bool.and_eq_true_iff.1 both
      obtain ⟨name, same⟩ := isAnchor_iff.1 anchor
      obtain ⟨indices, read, rfl⟩ := Option.map_eq_some_iff.1 h
      obtain ⟨strings, strung, rfl⟩ := exists_concatenation read
      exact ⟨strings, .anchored name same (beq_iff_eq.1 joined) strung, rfl⟩
    next =>
      obtain ⟨indices, read, rfl⟩ := Option.map_eq_some_iff.1 h
      obtain ⟨strings, strung, rfl⟩ := exists_concatenation read
      exact ⟨strings, .plain strung, rfl⟩
  · obtain ⟨indices, read, rfl⟩ := Option.map_eq_some_iff.1 h
    obtain ⟨strings, strung, rfl⟩ := exists_concatenation read
    exact ⟨strings, .plain strung, rfl⟩

/-- What significant tokens are cut into is what the grammar derives. -/
theorem ofTokens?_eq_some_iff :
    ofTokens? tokens = some a ↔ ∃ strings, Spelling tokens a.anchored strings ∧ a.strings = strings.map (·.1) := by
  refine ⟨exists_spelling, ?_⟩
  rintro ⟨strings, spelling, indices⟩
  rw [ofTokens?_of_spelling spelling, ← indices]

/-! ## Where the argument stands -/

theorem nextSignificant?_eq_some_iff {i first : Nat} :
    ts.nextSignificant? i = some first ↔ ∃ t, Follows ts i first t := by
  rw [Tokens.nextSignificant?, Tokens.findFrom?_eq_some_iff]
  constructor
  · rintro ⟨behind, loud, silent⟩
    rw [Tokens.kindSatisfies, Tokens.kindAt?, Option.any_map, Option.any_eq_true] at loud
    obtain ⟨t, token, significant⟩ := loud
    refine ⟨t, token, behind, Bool.not_eq_eq_eq_not.1 significant, fun k u found less before => ?_⟩
    have trivia := silent k less before
    rwa [Tokens.kindSatisfies_of_getElem? found, Bool.not_eq_false'] at trivia
  · rintro ⟨t, token, behind, significant, nearest⟩
    refine ⟨behind, by rw [Tokens.kindSatisfies_of_getElem? token, significant]; rfl, fun k less before => ?_⟩
    have bound : k < ts.size := Nat.lt_trans before (Array.getElem?_eq_some_iff.1 token).1
    have found := Array.getElem?_eq_getElem bound
    rw [Tokens.kindSatisfies_of_getElem? found, nearest k _ found less before]
    rfl

theorem ends_iff {k : TokenKind} : (k == .semicolon || k == .closeTag) = true ↔ Ends k := by
  rw [Bool.or_eq_true, beq_iff_eq, beq_iff_eq]
  rfl

theorem findFrom?_ends_iff {first stop : Nat} :
    ts.findFrom? (fun k => k == .semicolon || k == .closeTag) (fun _ => false) first = some stop ↔
      first ≤ stop ∧ (∃ e, ts[stop]? = some e ∧ Ends e.kind) ∧
        ∀ k u, ts[k]? = some u → first ≤ k → k < stop → ¬ Ends u.kind := by
  rw [Tokens.findFrom?_eq_some_iff]
  refine and_congr_right fun _ => and_congr ?_ ?_
  · rw [Tokens.kindSatisfies, Tokens.kindAt?, Option.any_map, Option.any_eq_true]
    exact exists_congr fun e => and_congr_right fun _ => ends_iff
  · constructor
    · intro others k u found le less ends
      have other := others k le less
      rw [Tokens.kindSatisfies_of_getElem? found, ends_iff.2 ends] at other
      cases other
    · intro others k le less
      refine Bool.eq_false_iff.2 fun here => ?_
      rw [Tokens.kindSatisfies, Tokens.kindAt?, Option.any_map, Option.any_eq_true] at here
      obtain ⟨u, found, ends⟩ := here
      exact others k u found le less (ends_iff.1 ends)

theorem isAt_openParen_iff {first : Nat} {t : Token} (token : ts[first]? = some t) :
    ts.isAt .openParen first = true ↔ t.kind = .openParen := by
  have kind : ts.kindAt? first = some t.kind := by rw [Tokens.kindAt?, token]; rfl
  rw [Tokens.isAt_eq kind, beq_iff_eq]

/-- The reader looks for the argument where it stands. -/
theorem region?_eq_some_iff (nested : ts.WellNested) {i start stop : Nat} :
    region? ts i = some (start, stop) ↔ Region ts i start stop := by
  constructor
  · intro h
    obtain ⟨first, next, h⟩ := Option.bind_eq_some_iff.1 h
    obtain ⟨t, follows⟩ := nextSignificant?_eq_some_iff.1 next
    split at h
    next paren =>
      obtain ⟨close, linked, h⟩ := Option.bind_eq_some_iff.1 h
      obtain ⟨rfl, rfl⟩ := Prod.mk.inj (Option.some.inj h)
      exact .group follows ((isAt_openParen_iff follows.token).1 paren) (nested.matching?_iff.1 linked)
    next other =>
      obtain ⟨last, found, h⟩ := Option.bind_eq_some_iff.1 h
      obtain ⟨rfl, rfl⟩ := Prod.mk.inj (Option.some.inj h)
      obtain ⟨order, ⟨e, token, ends⟩, nearest⟩ := findFrom?_ends_iff.1 found
      exact .statement follows (fun paren => other ((isAt_openParen_iff follows.token).2 paren)) order token ends nearest
  · rintro (⟨follows, paren, linked⟩ | ⟨follows, other, order, token, ends, nearest⟩)
    all_goals refine Option.bind_eq_some_iff.2 ⟨_, nextSignificant?_eq_some_iff.2 ⟨_, follows⟩, ?_⟩
    · rw [if_pos ((isAt_openParen_iff follows.token).2 paren)]
      exact Option.bind_eq_some_iff.2 ⟨_, nested.matching?_iff.2 linked, rfl⟩
    · rw [if_neg fun paren => other ((isAt_openParen_iff follows.token).1 paren)]
      exact Option.bind_eq_some_iff.2 ⟨_, findFrom?_ends_iff.2 ⟨order, ⟨_, token, ends⟩, nearest⟩, rfl⟩

/-- The reader accepts the arguments that the grammar derives where they stand. -/
theorem at?_eq_some_iff (nested : ts.WellNested) {i : Nat} (keyword : ts.kindSatisfies (·.isInclude) i = true) :
    at? ts i = some a ↔ ∃ start stop strings, Region ts i start stop ∧
      Spelling (ts.significantIn start stop) a.anchored strings ∧ a.strings = strings.map (·.1) := by
  rw [at?, if_pos keyword, Option.bind_eq_bind, Option.bind_eq_some_iff, Prod.exists]
  refine exists_congr fun start => exists_congr fun stop => ?_
  simp only [region?_eq_some_iff nested, run?_slice, ofTokens?_eq_some_iff, exists_and_left]

/-! ## The path text -/

/-- The strings of a concatenation are its tokens, and their texts are the values of these tokens. -/
theorem Concatenation.value {k : Nat} {text : String} (strung : Concatenation tokens strings)
    (mem : (k, text) ∈ strings) : ∃ t quote, (k, t) ∈ tokens ∧ stringValue? t.text = some (text, quote) := by
  induction strung with
  | single string value =>
    obtain ⟨rfl, rfl⟩ := Prod.mk.inj (List.mem_singleton.1 mem)
    exact ⟨_, _, List.mem_singleton_self _, value⟩
  | more string value joined others ih =>
    obtain same | mem := List.mem_cons.1 mem
    · obtain ⟨rfl, rfl⟩ := Prod.mk.inj same
      exact ⟨_, _, List.mem_cons_self .., value⟩
    · obtain ⟨t, quote, listed, value⟩ := ih mem
      exact ⟨t, quote, List.mem_cons_of_mem _ (List.mem_cons_of_mem _ listed), value⟩

theorem Spelling.value {k : Nat} {text : String} (spelling : Spelling tokens b strings) (mem : (k, text) ∈ strings) :
    ∃ t quote, (k, t) ∈ tokens ∧ stringValue? t.text = some (text, quote) := by
  cases spelling with
  | plain strung => exact strung.value mem
  | anchored name anchor joined strung =>
    obtain ⟨t, quote, listed, value⟩ := strung.value mem
    exact ⟨t, quote, List.mem_cons_of_mem _ (List.mem_cons_of_mem _ listed), value⟩

/-- The path text is all texts of the strings, one after the other. -/
theorem literal?_of_spelling {start stop : Nat} (spelling : Spelling (ts.significantIn start stop) b strings)
    (indices : a.strings = strings.map (·.1)) : a.literal? ts = some (String.join (strings.map (·.2))) := by
  have values : ∀ s ∈ strings, (stringValue? (ts.textAt s.1)).map (·.1) = some s.2 := by
    rintro ⟨k, text⟩ mem
    obtain ⟨t, quote, listed, value⟩ := spelling.value mem
    rw [Tokens.textAt, Tokens.getElem?_of_mem_significantIn listed]
    exact congrArg (Option.map _) value
  have read : (strings.map (·.1)).mapM (fun k => (stringValue? (ts.textAt k)).map (·.1)) =
      some (strings.map (·.2)) := by
    clear spelling indices
    induction strings with
    | nil => rfl
    | cons s strings ih =>
      rw [List.map_cons, List.mapM_cons, values s (List.mem_cons_self ..),
        ih fun s mem => values s (List.mem_cons_of_mem _ mem)]
      rfl
  rw [literal?, indices, read]
  rfl

end

/-- **The grammar of include arguments.** An include has the argument that `[__DIR__ .] string (. string)*` derives
from the tokens of its region, trivia apart, with the indices of the strings in order and with the anchor, and no
argument otherwise; the path text is then defined and all string texts, one after the other. -/
theorem argument_iff {source : Bytes} {i : Nat}
    (keyword : (Lexer.tokenize source).kindSatisfies (·.isInclude) i = true) (a : IncludeArgument) :
    (at? (Lexer.tokenize source) i = some a ↔ ∃ start stop strings, Region (Lexer.tokenize source) i start stop ∧
      Spelling ((Lexer.tokenize source).significantIn start stop) a.anchored strings ∧
        a.strings = strings.map (·.1)) ∧
    ∀ start stop strings, Region (Lexer.tokenize source) i start stop →
      Spelling ((Lexer.tokenize source).significantIn start stop) a.anchored strings →
        a.strings = strings.map (·.1) →
          a.literal? (Lexer.tokenize source) = some (String.join (strings.map (·.2))) := by
  have nested := (Lexer.sweep_brackets source).wellNested (fun _ _ => Lexer.links_tokenize) (Lexer.kindAt?_tokenize source)
  exact ⟨at?_eq_some_iff nested keyword, fun _ _ _ _ spelling indices => literal?_of_spelling spelling indices⟩

/-- White space, comments and the letter case of the anchor make no difference. -/
theorem argument_iff_anchored :
    let ts := Lexer.tokenize (Utf8.encode "<?php include (__dir__ . 'a' /* c */ . \"b\");")
    ts.kindSatisfies (·.isInclude) 2 = true ∧ ∃ start stop strings, Region ts 2 start stop ∧
      Spelling (ts.significantIn start stop) true strings ∧ [9, 15] = strings.map (·.1) := by
  have keyword : (Lexer.tokenize (Utf8.encode "<?php include (__dir__ . 'a' /* c */ . \"b\");")).kindSatisfies
      (·.isInclude) 2 = true := by decide +kernel
  have argument : at? (Lexer.tokenize (Utf8.encode "<?php include (__dir__ . 'a' /* c */ . \"b\");")) 2 =
      some ⟨[9, 15], true⟩ := by decide +kernel
  exact ⟨keyword, (argument_iff keyword ⟨[9, 15], true⟩).1.1 argument⟩

end IncludeArgument

end PhpRename
