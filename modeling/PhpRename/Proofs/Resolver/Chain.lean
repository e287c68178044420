import PhpRename.Proofs.Token.Cursor
import PhpRename.Proofs.TypeExpr.Text
import PhpRename.Resolver.Expression
import PhpRename.Workspace

/-!
# Walks along chains

What a walk makes of a chain that is written as a variable and member accesses, each with or without an
argument list: after each link it looks up the text so far with the name of the member, and behind an
argument list it looks up what it has then with a call mark (`walk_link`). So a call of a method has the
result type of the method where no property of that name is known (`chainType_call`).
-/

set_option autoImplicit false

namespace PhpRename

open TypeExpr

/-- A member access in a chain: the name of the member, and whether an argument list follows. -/
structure Link where
  name : String
  isCall : Bool
  deriving DecidableEq, Repr

namespace Tokens

variable {ts : Tokens}

/-- A member of a chain stands behind `last`: the access operator and the name at `stop`. Whitespace and
comments may stand between. -/
structure MemberAt (ts : Tokens) (last : Nat) (name : String) (stop : Nat) : Prop where
  operator : ∃ arrow, ts.nextSignificant? last = some arrow ∧ ts.kindAt? arrow = some .arrow ∧
    ts.nextSignificant? arrow = some stop
  identifier : ts.kindAt? stop = some .identifier
  text : ts.textAt stop = name
  label : isVariable name = false

/-- The tokens behind `last` and up to `stop` are a link of a chain. -/
inductive LinkAt (ts : Tokens) (last : Nat) : Link → Nat → Prop
  | member {name : String} {stop : Nat} (here : ts.MemberAt last name stop) : LinkAt ts last ⟨name, false⟩ stop
  | call {name : String} {member opening stop : Nat} (here : ts.MemberAt last name member)
      (next : ts.nextSignificant? member = some opening) (opens : ts.kindAt? opening = some .openParen)
      (closed : ts.matching? opening = some stop) (behind : opening < stop) : LinkAt ts last ⟨name, true⟩ stop

/-- The tokens behind `last` and up to `stop` are the links of a chain, in order. -/
inductive LinksAt (ts : Tokens) : Nat → List Link → Nat → Prop
  | nil (last : Nat) : LinksAt ts last [] last
  | cons {last middle stop : Nat} {link : Link} {links : List Link} (first : ts.LinkAt last link middle)
      (rest : LinksAt ts middle links stop) : LinksAt ts last (link :: links) stop

/-- The tokens from `start` to `stop` are a chain: a variable and links. -/
structure ChainAt (ts : Tokens) (start : Nat) (root : String) (links : List Link) (stop : Nat) : Prop where
  kind : ts.kindAt? start = some .variableName
  text : ts.textAt start = root
  rooted : isVariable root = true
  links : ts.LinksAt start links stop

theorem MemberAt.bounds {last stop : Nat} {name : String} (h : ts.MemberAt last name stop) :
    last < stop ∧ stop < ts.size := by
  obtain ⟨arrow, first, -, second⟩ := h.operator
  have := lt_of_nextSignificant? first
  have := lt_of_nextSignificant? second
  omega

theorem matching_of_matching? {i close : Nat} (lt : i < ts.size) (closed : ts.matching? i = some close) :
    ts[i].matching = some close := by
  rw [matching?, Array.getElem?_eq_getElem lt, Option.bind_some] at closed
  obtain ⟨j, matching, inRange⟩ := Option.bind_eq_some_iff.1 closed
  rw [inRange?] at inRange
  split at inRange
  · rwa [← Option.some.inj inRange]
  · cases inRange

theorem LinkAt.bounds {last stop : Nat} {link : Link} (h : ts.LinkAt last link stop) : last < stop ∧ stop < ts.size := by
  cases h with
  | member here => exact here.bounds
  | call here next opens closed behind =>
    have := here.bounds
    have := lt_of_nextSignificant? next
    have inRange := (Option.bind_eq_some_iff.1 closed)
    obtain ⟨close, -, inRange⟩ := inRange
    rw [inRange?] at inRange
    split at inRange
    · obtain rfl := Option.some.inj inRange
      omega
    · cases inRange

theorem LinksAt.bounds {last stop : Nat} {links : List Link} (h : ts.LinksAt last links stop) (inside : last < ts.size) :
    last ≤ stop ∧ stop < ts.size := by
  induction h with
  | nil last => exact ⟨Nat.le_refl _, inside⟩
  | cons first rest ih =>
    have := first.bounds
    have := ih this.2
    omega

theorem ChainAt.bounds {start stop : Nat} {root : String} {links : List Link} (h : ts.ChainAt start root links stop) :
    start ≤ stop ∧ stop < ts.size := h.links.bounds (kindAt?_eq_some_iff.1 h.kind).1

end Tokens

namespace Resolver

variable {r : Resolver} {span : Span} {i : Nat} {text : String}

/-! ## One token -/

theorem walk_end (behind : span.stop < i) (afterAccess : Bool) : r.walk span i text afterAccess = ⟨text, true⟩ := by
  rw [walk, dif_neg fun within => Nat.not_le_of_lt behind within.1]

theorem walk_trivia {kind : TokenKind} (h : r.tokens.kindAt? i = some kind) (trivia : kind.isTrivia = true)
    (within : i ≤ span.stop) (afterAccess : Bool) :
    r.walk span i text afterAccess = r.walk span (i + 1) text afterAccess := by
  obtain ⟨lt, same⟩ := Tokens.kindAt?_eq_some_iff.1 h
  rw [walk, dif_pos ⟨within, lt⟩]
  rw [TokenKind.isTrivia.eq_def] at trivia
  split at trivia
  case h_4 => cases trivia
  all_goals simp only [same]

/-- A walk passes over whitespace and comments. -/
theorem walk_findFrom? {j : Nat} (h : r.tokens.findFrom? (!·.isTrivia) (fun _ => false) i = some j) (within : j ≤ span.stop)
    (afterAccess : Bool) : r.walk span i text afterAccess = r.walk span j text afterAccess := by
  have le : i ≤ j := (Tokens.findFrom?_spec _ _ _ _ _ h).1
  fun_induction Tokens.findFrom? r.tokens (!·.isTrivia) (fun _ => false) i with
  | case1 i lt loud =>
    obtain rfl := Option.some.inj h
    rfl
  | case2 i lt silent stops => cases stops
  | case3 i lt silent goes ih =>
    have behind : i + 1 ≤ j := (Tokens.findFrom?_spec _ _ _ _ _ h).1
    have kind : r.tokens.kindAt? i = some r.tokens[i].kind := Tokens.kindAt?_eq_some_iff.2 ⟨lt, rfl⟩
    rw [walk_trivia kind (by simpa using silent) (by omega), ih h behind]
  | case4 => cases h

theorem walk_nextSignificant? {j : Nat} (h : r.tokens.nextSignificant? i = some j) (within : j ≤ span.stop)
    (afterAccess : Bool) : r.walk span (i + 1) text afterAccess = r.walk span j text afterAccess :=
  walk_findFrom? h within afterAccess

theorem walk_arrow (h : r.tokens.kindAt? i = some .arrow) (within : i ≤ span.stop) (afterAccess : Bool) :
    r.walk span i text afterAccess = r.walk span (i + 1) (text ++ separator) true := by
  obtain ⟨lt, same⟩ := Tokens.kindAt?_eq_some_iff.1 h
  rw [walk, dif_pos ⟨within, lt⟩]
  simp only [same]

/-- Behind an access operator a name is put at the end of the text, and that is looked up. -/
theorem walk_member {name : String} (h : r.tokens.kindAt? i = some .identifier) (named : r.tokens.textAt i = name)
    (label : isVariable name = false) (within : i ≤ span.stop) (resolves : span.resolveLast = true) :
    r.walk span i text true = r.walk span (i + 1) (r.settle span.start (text ++ name)) false := by
  obtain ⟨lt, same⟩ := Tokens.kindAt?_eq_some_iff.1 h
  rw [Tokens.textAt, Array.getElem?_eq_getElem lt, Option.map_some, Option.getD_some] at named
  have noSigil : name.toList.dropWhile (· == '$') = name.toList := by
    cases chars : name.toList with
    | nil => rfl
    | cons c rest =>
      rw [isVariable, chars, List.head?_cons, beq_eq_false_iff_ne] at label
      exact List.dropWhile_cons_of_neg fun same => label (congrArg some (beq_iff_eq.1 same))
  rw [walk, dif_pos ⟨within, lt⟩]
  simp only [same, resolves, Bool.true_or, if_true, linkText, named, noSigil, String.ofList_toList]

/-- Behind a text an argument list is passed over, and the text with a call mark is looked up. -/
theorem walk_arguments {close : Nat} (h : r.tokens.kindAt? i = some .openParen) (closed : r.tokens.matching? i = some close)
    (behind : i < close) (within : i ≤ span.stop) (filled : text ≠ "") (afterAccess : Bool) :
    r.walk span i text afterAccess =
      r.walk span (close + 1) (r.settle span.start (markCall text)) afterAccess := by
  obtain ⟨lt, same⟩ := Tokens.kindAt?_eq_some_iff.1 h
  have linked := Tokens.matching_of_matching? lt closed
  have notEmpty : text.isEmpty = false := by
    rw [Bool.eq_false_iff, ne_eq, String.isEmpty_iff]
    exact filled
  rw [walk, dif_pos ⟨within, lt⟩]
  simp only [same, notEmpty, Bool.false_eq_true, if_false, linked, Nat.max_eq_right (Nat.le_of_lt behind)]

/-- The type of the first expression between two parentheses. -/
def argumentType? (r : Resolver) (opening close : Nat) : Option String :=
  (r.tokens.significantBetween? (opening + 1) close).bind fun first =>
    (r.tokens.expressionEnd? first).bind fun last => r.expressionType? first last

/-- Behind an empty text, parentheses are no argument list: the text is the type of what they enclose, and
where that has none the walk ends. -/
theorem walk_enclosed {close : Nat} (h : r.tokens.kindAt? i = some .openParen)
    (closed : r.tokens.matching? i = some close) (behind : i < close) (within : i ≤ span.stop) (afterAccess : Bool) :
    r.walk span i "" afterAccess = ((r.argumentType? i close).map fun inner =>
      r.walk span (close + 1) inner afterAccess).getD ⟨"", false⟩ := by
  obtain ⟨lt, same⟩ := Tokens.kindAt?_eq_some_iff.1 h
  have linked := Tokens.matching_of_matching? lt closed
  have empty : "".isEmpty = true := rfl
  rw [walk, dif_pos ⟨within, lt⟩]
  simp only [same, empty, if_true, linked, Nat.max_eq_right (Nat.le_of_lt behind), argumentType?]
  split
  · rename_i nothing
    rw [nothing, Option.bind_none, Option.map_none, Option.getD_none]
  · rename_i first found
    rw [found, Option.bind_some]
    split
    · rename_i untyped
      rw [untyped, Option.map_none, Option.getD_none]
    · rename_i inner typed
      rw [typed, Option.map_some, Option.getD_some]

/-! ## One link -/

/-- A walk over the name of a member looks it up behind the text. -/
theorem walk_memberAt {last stop : Nat} {name : String} (here : r.tokens.MemberAt last name stop)
    (within : stop ≤ span.stop) (resolves : span.resolveLast = true) :
    r.walk span (last + 1) text false =
      r.walk span (stop + 1) (r.settle span.start (text ++ separator ++ name)) false := by
  obtain ⟨arrow, first, kind, second⟩ := here.operator
  have order := Tokens.lt_of_nextSignificant? second
  rw [walk_nextSignificant? first (by omega), walk_arrow kind (by omega), walk_nextSignificant? second within,
    walk_member here.identifier here.text here.label within resolves]

/-- The text of a chain after one more link. -/
def follow (r : Resolver) (index : Nat) (text : String) (link : Link) : String :=
  let reached := r.settle index (text ++ separator ++ link.name)
  if link.isCall then r.settle index (markCall reached) else reached

/-- A walk over a link looks up its name behind the text, and then the call. What it finds for the name
of a call is not empty: behind an empty text, parentheses are no argument list. -/
theorem walk_link {last stop : Nat} {link : Link} (here : r.tokens.LinkAt last link stop) (within : stop ≤ span.stop)
    (resolves : span.resolveLast = true)
    (filled : link.isCall = true → r.settle span.start (text ++ separator ++ link.name) ≠ "") :
    r.walk span (last + 1) text false = r.walk span (stop + 1) (r.follow span.start text link) false := by
  cases here with
  | member here => rw [walk_memberAt here within resolves, follow, if_neg Bool.false_ne_true]
  | call here next opens closed behind =>
    have order := Tokens.lt_of_nextSignificant? next
    rw [walk_memberAt here (by omega) resolves, walk_nextSignificant? next (by omega),
      walk_arguments opens closed behind (by omega) (filled rfl), follow, if_pos rfl]

/-- The type of a chain is what the walk over its links ends with. -/
theorem chainType_eq {start stop : Nat} {root : String} {links : List Link}
    (chain : r.tokens.ChainAt start root links stop) :
    r.chainType start stop =
      (r.walk ⟨start, stop, true⟩ (start + 1) (r.settle start root) false).text := by
  have bounds := chain.bounds
  obtain ⟨lt, same⟩ := Tokens.kindAt?_eq_some_iff.1 chain.kind
  have text := chain.text
  rw [Tokens.textAt, Array.getElem?_eq_getElem lt, Option.map_some, Option.getD_some] at text
  have clipped : min stop (r.tokens.size - 1) = stop := by omega
  rw [chainType, walkChain, clipped, walk, dif_pos ⟨bounds.1, lt⟩]
  simp only [same, Bool.true_or, if_true, linkText, text, Bool.false_eq_true, if_false, String.empty_append]
  rfl

/-! ## A call of a method -/

variable {index : Nat} {name : String}

/-- A name with a member access keeps one when its root stands for a class. -/
theorem accesses_normalizeRoot (h : Accesses name) (index : Nat) : Accesses (r.normalizeRoot index name) := by
  unfold normalizeRoot
  split
  · exact h.withRoot _
  · exact h

/-- The type of a name with a member access comes from its look-up: such a name is no class. -/
theorem typeWith_of_accesses (h : Accesses name) (typeOf : String → Option String) :
    r.typeWith index typeOf name = (r.lookup? index (r.normalizeRoot index name)).map fun found =>
      if specificityOf found == some 0 then found else resolveText typeOf found := by
  have noClass := (accesses_normalizeRoot (r := r) h index).parse?_ne_named
  unfold typeWith
  generalize r.normalizeRoot index name = normalized at noClass
  dsimp only
  split
  · rename_i cls found
    split at found
    · exact absurd found (noClass cls)
    · cases found
  · rfl

theorem typeOf?_of_lookup? {found : String} (h : Accesses name)
    (bound : r.lookup? index (r.normalizeRoot index name) = some found) (isClass : IsClass found) :
    r.typeOf? index name = some found := by
  rw [typeOf?, typeWithin, typeWith_of_accesses h, bound, Option.map_some, isClass.specificityOf_eq,
    beq_self_eq_true, if_pos rfl]

theorem settle_of_typeOf? {type : String} (known : r.typeOf? index name = some type) : r.settle index name = type := by
  rw [settle, known, Option.getD_some]

theorem settle_of_unknown (unknown : r.typeOf? index name = none) : r.settle index name = name := by
  rw [settle, unknown, Option.getD_none]

theorem markCall_of_bare (h : Bare text) : markCall text = marked text := by
  rw [markCall, if_neg fun mark => h.head?_ne (beq_iff_eq.1 mark)]

theorem markCall_marked (text : String) : markCall (marked text) = marked text := by
  rw [markCall, head?_marked, if_pos (beq_self_eq_true _)]

/-- A text with a call mark is no class. -/
theorem not_isClass_markCall (text : String) : ¬ IsClass (markCall text) := by
  intro isClass
  have other := isClass.bare.head?_ne
  rw [markCall] at other
  split at other
  · rename_i mark
    exact other (beq_iff_eq.1 mark)
  · exact other (head?_marked text)

section

variable {start close : Nat} {root member cls : String}

/-- The type of a variable with one link. -/
theorem chainType_link {link : Link} (chain : r.tokens.ChainAt start root [link] close)
    (filled : r.settle start (r.settle start root ++ separator ++ link.name) ≠ "") :
    r.chainType start close = r.follow start (r.settle start root) link := by
  cases chain.links with
  | cons first nothing =>
    cases nothing with
    | nil =>
      have one : r.walk ⟨start, close, true⟩ (start + 1) (r.settle start root) false =
          r.walk ⟨start, close, true⟩ (close + 1) (r.follow start (r.settle start root) link) false :=
        walk_link first (Nat.le_refl _) rfl fun _ => filled
      rw [chainType_eq chain, one, walk_end (Nat.lt_succ_self _)]

theorem settle_of_typeAt? (chain : r.tokens.ChainAt start root [⟨member, true⟩] close)
    (typed : r.typeAt? start = some cls) : r.settle start root = cls := by
  obtain ⟨lt, kind⟩ := Tokens.kindAt?_eq_some_iff.1 chain.kind
  have text := chain.text
  rw [Tokens.textAt, Array.getElem?_eq_getElem lt, Option.map_some, Option.getD_some] at text
  rw [typeAt?, Array.getElem?_eq_getElem lt, Option.bind_some, text] at typed
  exact settle_of_typeOf? typed

/-- Where no property of the name of a method is known, its call has the type of the marked name. -/
theorem chainType_call_of_unknown {result : String} (chain : r.tokens.ChainAt start root [⟨member, true⟩] close)
    (typed : r.typeAt? start = some cls) (isClass : IsClass cls)
    (unknown : r.typeOf? start (cls ++ separator ++ member) = none)
    (known : r.typeOf? start (marked (cls ++ separator ++ member)) = some result) :
    r.chainType start close = result := by
  have bare : Bare (cls ++ separator ++ member) := (isClass.bare.append separator).append member
  have receiver := settle_of_typeAt? chain typed
  have kept := settle_of_unknown unknown
  rw [chainType_link chain (by rw [receiver, kept]; exact bare.ne_empty), receiver, follow, if_pos rfl, kept,
    markCall_of_bare bare, settle_of_typeOf? known]

/-- Where a property of the name of a method is known, its call has what is known of the marked type of
the property. -/
theorem chainType_call_of_known {property : String} (chain : r.tokens.ChainAt start root [⟨member, true⟩] close)
    (typed : r.typeAt? start = some cls) (known : r.typeOf? start (cls ++ separator ++ member) = some property)
    (filled : property ≠ "") : r.chainType start close = r.settle start (markCall property) := by
  have receiver := settle_of_typeAt? chain typed
  have reached := settle_of_typeOf? known
  rw [chainType_link chain (by rw [receiver, reached]; exact filled), receiver, follow, if_pos rfl, reached]

/-- Where the type of a property of the name of a method is the empty text, the argument list of its call is
read as an expression in parentheses. -/
theorem chainType_call_of_empty (chain : r.tokens.ChainAt start root [⟨member, true⟩] close)
    (typed : r.typeAt? start = some cls) (known : r.typeOf? start (cls ++ separator ++ member) = some "") :
    ∃ opening, r.tokens.kindAt? opening = some .openParen ∧ r.tokens.matching? opening = some close ∧
      r.chainType start close = (r.argumentType? opening close).getD "" := by
  have receiver := settle_of_typeAt? chain typed
  have reached := settle_of_typeOf? known
  rw [chainType_eq chain, receiver]
  cases chain.links with
  | cons first nothing =>
    cases nothing with
    | nil =>
      cases first with
      | @call _ name opening _ here next opens closed behind =>
        refine ⟨opening, opens, closed, ?_⟩
        have order := Tokens.lt_of_nextSignificant? next
        have passed : r.walk ⟨start, close, true⟩ (start + 1) cls false =
            r.walk ⟨start, close, true⟩ opening "" false := by
          rw [walk_memberAt here (Nat.le_of_lt (Nat.lt_trans order.1 behind)) rfl, reached,
            walk_nextSignificant? next (Nat.le_of_lt behind)]
        rw [passed, walk_enclosed opens closed behind (Nat.le_of_lt behind)]
        cases r.argumentType? opening close with
        | none => rfl
        | some inner => rw [Option.map_some, Option.getD_some, Option.getD_some, walk_end (Nat.lt_succ_self _)]

/-- **Calls of methods.** Where the receiver of a call is of a class, and the method of that name is bound to
a class there, the chain up to the closing parenthesis is of the latter when no property of the name is
known. When one is, the text that is marked as a call is the type of the property, and not its name: the
chain is then of what is known of that, and of the class of the method only if that is. A type that is the
empty text is not marked: the chain is then of the type of the first argument, or empty. -/
theorem chainType_call {result : String} (chain : r.tokens.ChainAt start root [⟨member, true⟩] close)
    (typed : r.typeAt? start = some cls) (isClass : IsClass cls)
    (bound : r.lookup? start (r.normalizeRoot start (marked (cls ++ separator ++ member))) = some result)
    (resultClass : IsClass result) :
    (r.typeOf? start (cls ++ separator ++ member) = none → r.chainType start close = result) ∧
      (∀ property, r.typeOf? start (cls ++ separator ++ member) = some property → property ≠ "" →
        r.chainType start close = r.settle start (markCall property) ∧
          (r.chainType start close = result ↔ r.typeOf? start (markCall property) = some result)) ∧
      (r.typeOf? start (cls ++ separator ++ member) = some "" →
        ∃ opening, r.tokens.kindAt? opening = some .openParen ∧ r.tokens.matching? opening = some close ∧
          r.chainType start close = (r.argumentType? opening close).getD "" ∧
          (r.chainType start close = result ↔ r.argumentType? opening close = some result)) := by
  refine ⟨fun unknown => ?_, fun property known filled => ?_, fun known => ?_⟩
  · have known := typeOf?_of_lookup? (accesses_append cls member).marked bound resultClass
    exact chainType_call_of_unknown chain typed isClass unknown known
  · have answer := chainType_call_of_known chain typed known filled
    refine ⟨answer, ?_⟩
    rw [answer]
    cases found : r.typeOf? start (markCall property) with
    | none =>
      rw [settle_of_unknown found]
      constructor
      · rintro rfl
        exact absurd resultClass (not_isClass_markCall property)
      · rintro ⟨⟩
    | some type => rw [settle_of_typeOf? found, Option.some.injEq]
  · obtain ⟨opening, opens, closed, answer⟩ := chainType_call_of_empty chain typed known
    refine ⟨opening, opens, closed, answer, ?_⟩
    rw [answer]
    cases r.argumentType? opening close with
    | none =>
      constructor
      · rintro rfl
        exact absurd rfl resultClass.bare.ne_empty
      · rintro ⟨⟩
    | some type => rw [Option.getD_some, Option.some.injEq]

end

/-- A source with a call of a method. -/
def callSource : Bytes := Utf8.encode "<?php $o->m();"

theorem chainAt_callSource : (Lexer.tokenize callSource).ChainAt 2 "$o" [⟨"m", true⟩] 6 := by
  let ts := Lexer.tokenize callSource
  have reads :
      (ts.kindAt? 2 = some .variableName ∧ ts.textAt 2 = "$o") ∧
        ((ts.nextSignificant? 2 = some 3 ∧ ts.kindAt? 3 = some .arrow ∧ ts.nextSignificant? 3 = some 4) ∧
          ts.kindAt? 4 = some .identifier ∧ ts.textAt 4 = "m") ∧
        ts.nextSignificant? 4 = some 5 ∧ ts.kindAt? 5 = some .openParen ∧ ts.matching? 5 = some 6 := by decide +kernel
  obtain ⟨⟨kind, text⟩, ⟨operator, name, spelled⟩, next, opens, closed⟩ := reads
  have member : ts.MemberAt 2 "m" 4 := ⟨⟨3, operator⟩, name, spelled, rfl⟩
  exact ⟨kind, text, rfl, .cons (.call member next opens closed (by decide)) (.nil 6)⟩

/-- A resolver for it that knows the class of the variable and the result of the method, and what else it
is given. -/
def callResolver (others : List Binding) : Resolver :=
  Workspace.resolver {} (SourceFile.ofBytes (.ofText "/p/a.php") callSource)
    { entries := [⟨"/p/a.php", 0, "$o", "C", 2⟩, ⟨"/p/a.php", 0, "*C->m", "R", 100⟩] ++ others }

/-- The call is of the result of the method; with a property in reach it is of that of the function named
like the class of the property, and with one of the empty type it is of what its parentheses enclose. -/
theorem chainType_call_method :
    let r := callResolver []
    let r' := callResolver [⟨"/p/a.php", 0, "C->m", "P", 101⟩, ⟨"/p/a.php", 0, "*P", "Q", 102⟩]
    let r'' := callResolver [⟨"/p/a.php", 0, "C->m", "", 101⟩]
    (r.typeAt? 2 = some "C" ∧ r.lookup? 2 "*C->m" = some "R" ∧ r.chainType 2 6 = "R") ∧
      (r'.typeAt? 2 = some "C" ∧ r'.lookup? 2 "*C->m" = some "R" ∧ r'.chainType 2 6 = "Q") ∧
      r''.typeAt? 2 = some "C" ∧ r''.lookup? 2 "*C->m" = some "R" ∧
        ∃ opening, r''.tokens.matching? opening = some 6 ∧
          r''.chainType 2 6 = (r''.argumentType? opening 6).getD "" := by
  intro r r' r''
  have method {r : Resolver} (itself : r.normalizeRoot 2 "*C->m" = "*C->m") (bound : r.lookup? 2 "*C->m" = some "R") :
      r.lookup? 2 (r.normalizeRoot 2 (marked ("C" ++ separator ++ "m"))) = some "R" := itself.symm ▸ bound
  have typed : r.typeAt? 2 = some "C" := by decide +kernel
  have typed' : r'.typeAt? 2 = some "C" := by decide +kernel
  have typed'' : r''.typeAt? 2 = some "C" := by decide +kernel
  have bound : r.lookup? 2 "*C->m" = some "R" := by decide +kernel
  have bound' : r'.lookup? 2 "*C->m" = some "R" := by decide +kernel
  have bound'' : r''.lookup? 2 "*C->m" = some "R" := by decide +kernel
  have answer := chainType_call chainAt_callSource typed (by decide) (method (by decide +kernel) bound) (by decide)
  have answer' := chainType_call chainAt_callSource typed' (by decide) (method (by decide +kernel) bound') (by decide)
  have answer'' := chainType_call chainAt_callSource typed'' (by decide) (method (by decide +kernel) bound'') (by decide)
  have property : r'.typeOf? 2 ("C" ++ separator ++ "m") = some "P" := by decide +kernel
  have function : r'.settle 2 (markCall "P") = "Q" := by decide +kernel
  obtain ⟨opening, -, closed, enclosed, -⟩ := answer''.2.2 (by decide +kernel)
  exact ⟨⟨typed, bound, answer.1 (by decide +kernel)⟩,
    ⟨typed', bound', ((answer'.2.1 "P" property (by decide)).1).trans function⟩,
    typed'', bound'', opening, closed, enclosed⟩

/-- A property takes the place of the method of its name. -/
theorem chainType_call_mistaken :
    let r := callResolver [⟨"/p/a.php", 0, "C->m", "P", 101⟩]
    r.typeAt? 2 = some "C" ∧ r.lookup? 2 "*C->m" = some "R" ∧ r.chainType 2 6 = "*P" := by
  intro r
  have known : r.typeOf? 2 ("C" ++ separator ++ "m") = some "P" := by decide +kernel
  refine ⟨by decide +kernel, by decide +kernel, ?_⟩
  rw [chainType_call_of_known chainAt_callSource (by decide +kernel) known (by decide)]
  decide +kernel

end Resolver

end PhpRename
