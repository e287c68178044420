import PhpRename.Proofs.Bindings.Lookup
import PhpRename.Proofs.Resolver.Chain

/-!
# Texts of unresolved chains

Where nothing is bound, a chain is written as it stands: its root and the names of its links with a
separator between them, and one call mark in front if any link is a call (`chainType_unbound`). The text
tells whether the chain has a call, but not which links are calls (`chainType_eq_iff`).
-/

set_option autoImplicit false

namespace PhpRename.Resolver

open TypeExpr

variable {r : Resolver}

/-! ## Without bindings -/

theorem lookup?_unbound (unbound : r.bindings.entries = []) (index : Nat) (name : String) :
    r.lookup? index name = none := by
  have noBinding (name file : String) (scope position : Int) : r.bindings.lookup? name file scope position = none := by
    rw [Bindings.lookup?_eq_none_iff, Bindings.ofName, unbound, List.filter_nil]
  have noMember (isFirst : Bool) (cls : String) : r.lookupMember? name isFirst cls = none := by
    rw [lookupMember?]
    simp only [noBinding, ite_self, Option.none_or, Option.bind_fun_none]
  have noInherited : r.lookupInherited? name = none := by
    rw [lookupInherited?, noMember, Option.none_or, List.findSome?_eq_none_iff.2 fun cls _ => noMember false cls, ite_self]
  rw [lookup?]
  simp only [noBinding, noInherited, Option.none_or, Option.or_none]
  rw [List.findSome?_eq_none_iff.2 fun _ _ => rfl, ite_self]

/-- A text with a member access stays as it is. -/
theorem settle_unbound (unbound : r.bindings.entries = []) {text : String} (h : Accesses text) (index : Nat) :
    r.settle index text = text := by
  refine settle_of_unknown ?_
  rw [typeOf?, typeWithin, typeWith_of_accesses h, lookup?_unbound unbound, Option.map_none]

/-- A variable settles to itself or to a class: neither is marked as a call. -/
theorem bare_settle (unbound : r.bindings.entries = []) {root : String} (rooted : isVariable root = true) (index : Nat) :
    Bare (r.settle index root) := by
  cases known : r.typeOf? index root with
  | none =>
    rw [settle_of_unknown known]
    exact bare_of_isVariable rooted
  | some type =>
    rw [settle_of_typeOf? known]
    unfold typeOf? typeWithin typeWith at known
    generalize r.normalizeRoot index root = normalized at known
    simp only [lookup?_unbound unbound, Option.map_none] at known
    split at known
    · rename_i cls parsed
      obtain rfl := Option.some.inj known
      split at parsed
      · have isClass : IsClass cls := (isClass_of_parse? parsed).1 ▸ parsed
        exact isClass.bare
      · cases parsed
    · cases known

/-! ## The text of a chain -/

/-- A text, with a call mark in front when something in it is called. -/
def callText (called : Bool) (text : String) : String := if called then marked text else text

theorem markCall_callText {text : String} (h : Bare text) (called : Bool) : markCall (callText called text) = marked text := by
  cases called with
  | true => exact markCall_marked text
  | false => exact markCall_of_bare h

/-- A link adds its name, and a call the mark of the whole text unless that has it. -/
theorem follow_callText (unbound : r.bindings.entries = []) (index : Nat) {text : String} (h : Bare text)
    (called : Bool) (link : Link) : r.follow index (callText called text) link =
      callText (called || link.isCall) (text ++ separator ++ link.name) := by
  have longer : callText called text ++ separator ++ link.name = callText called (text ++ separator ++ link.name) := by
    cases called with
    | true => simp only [callText, if_pos, marked, String.append_assoc]
    | false => rfl
  have kept : r.settle index (callText called text ++ separator ++ link.name) =
      callText called text ++ separator ++ link.name := settle_unbound unbound (accesses_append _ _) index
  rw [follow]
  simp only [kept]
  rw [longer]
  cases link.isCall with
  | false => rw [if_neg Bool.false_ne_true, Bool.or_false]
  | true =>
    have bare : Bare (text ++ separator ++ link.name) := (h.append separator).append link.name
    rw [if_pos rfl, markCall_callText bare, settle_unbound unbound (accesses_append _ _).marked, Bool.or_true]
    rfl

/-- A walk over links that are not bound adds their names, and one mark for all their calls. -/
theorem walk_links (unbound : r.bindings.entries = []) {span : Span} (resolves : span.resolveLast = true) {last stop : Nat}
    {links : List Link} (here : r.tokens.LinksAt last links stop) (inside : last < r.tokens.size) (within : stop ≤ span.stop)
    {text : String} (h : Bare text) (called : Bool) :
    r.walk span (last + 1) (callText called text) false =
      r.walk span (stop + 1) (callText (called || links.any (·.isCall)) (render (.chain text (links.map (·.name))))) false := by
  induction here generalizing text called with
  | nil last => rw [List.any_nil, Bool.or_false, List.map_nil, render, List.foldl_nil]
  | @cons last middle stop link links first rest ih =>
    have inside' := first.bounds.2
    have bounds := rest.bounds inside'
    have filled : r.settle span.start (callText called text ++ separator ++ link.name) ≠ "" := by
      rw [settle_unbound unbound (accesses_append _ _)]
      exact (accesses_append _ _).ne_empty
    have one := walk_link first (Nat.le_trans bounds.1 within) resolves fun _ => filled
    rw [one, follow_callText unbound span.start h, ih inside' within ((h.append separator).append link.name),
      List.any_cons, Bool.or_assoc]
    rfl

/-- **Chains without bindings.** The text of the chain is the root and the names, with a call mark in front
when any link is a call. -/
theorem chainType_unbound (unbound : r.bindings.entries = []) {start stop : Nat} {root : String} {links : List Link}
    (chain : r.tokens.ChainAt start root links stop) :
    r.chainType start stop =
      callText (links.any (·.isCall)) (render (.chain (r.settle start root) (links.map (·.name)))) := by
  have inside := (Tokens.kindAt?_eq_some_iff.1 chain.kind).1
  have resolves : (⟨start, stop, true⟩ : Span).resolveLast = true := rfl
  have walked := walk_links unbound resolves chain.links inside (Nat.le_refl stop)
    (bare_settle unbound chain.rooted start) false
  rw [Bool.false_or, walk_end (Nat.lt_succ_self _), callText, if_neg Bool.false_ne_true] at walked
  rw [chainType_eq chain, walked]

/-! ## What the text tells -/

theorem callText_inj {a b : String} (ha : Bare a) (hb : Bare b) (called called' : Bool) :
    callText called a = callText called' b ↔ called = called' ∧ a = b := by
  constructor
  · intro same
    cases called <;> cases called'
    case false.false => exact ⟨rfl, same⟩
    case true.true => exact ⟨rfl, (String.append_right_inj "*").1 same⟩
    case false.true =>
      rw [callText, callText, if_neg Bool.false_ne_true, if_pos rfl] at same
      exact absurd (same ▸ ha) (not_bare_marked b)
    case true.false =>
      rw [callText, callText, if_neg Bool.false_ne_true, if_pos rfl] at same
      exact absurd (same ▸ hb) (not_bare_marked a)
  · rintro ⟨rfl, rfl⟩
    rfl

/-- **What the text of an unresolved chain tells.** Two chains with the same names of their links, looked at
where nothing is bound, have the same text just when their roots settle to the same and when both or
neither hold a call. -/
theorem chainType_eq_iff {r' : Resolver} (unbound : r.bindings.entries = []) (unbound' : r'.bindings.entries = [])
    {start stop start' stop' : Nat} {root root' : String} {links links' : List Link}
    (chain : r.tokens.ChainAt start root links stop) (chain' : r'.tokens.ChainAt start' root' links' stop')
    (names : links.map (·.name) = links'.map (·.name)) :
    r.chainType start stop = r'.chainType start' stop' ↔
      r.settle start root = r'.settle start' root' ∧ links.any (·.isCall) = links'.any (·.isCall) := by
  have bare := bare_settle unbound chain.rooted start
  have bare' := bare_settle unbound' chain'.rooted start'
  rw [chainType_unbound unbound chain, chainType_unbound unbound' chain', names,
    callText_inj (bare.render _) (bare'.render _), render_chain_inj]
  exact and_comm

/-- A source with three chains of the same names. -/
def threeChains : Bytes := Utf8.encode "<?php $a->b()->c; $a->b->c(); $a->b->c;"

/-- A resolver for it that knows nothing. -/
def unboundResolver : Resolver := Workspace.resolver {} (SourceFile.ofBytes (.ofText "/p/a.php") threeChains) {}

/-- The first chain calls the first member, the second one the second, and the third one none. -/
theorem chainAt_threeChains :
    let ts := unboundResolver.tokens
    ts.ChainAt 2 "$a" [⟨"b", true⟩, ⟨"c", false⟩] 8 ∧ ts.ChainAt 11 "$a" [⟨"b", false⟩, ⟨"c", true⟩] 17 ∧
      ts.ChainAt 20 "$a" [⟨"b", false⟩, ⟨"c", false⟩] 24 := by
  intro ts
  -- One evaluation of the tokens for all that is read from them.
  have reads :
      ((ts.kindAt? 2 = some .variableName ∧ ts.textAt 2 = "$a") ∧
        (ts.kindAt? 11 = some .variableName ∧ ts.textAt 11 = "$a") ∧
        (ts.kindAt? 20 = some .variableName ∧ ts.textAt 20 = "$a")) ∧
      (∀ m ∈ [(2, "b"), (6, "c"), (11, "b"), (13, "c"), (20, "b"), (22, "c")],
        (ts.nextSignificant? m.1 = some (m.1 + 1) ∧ ts.kindAt? (m.1 + 1) = some .arrow ∧
          ts.nextSignificant? (m.1 + 1) = some (m.1 + 2)) ∧
        ts.kindAt? (m.1 + 2) = some .identifier ∧ ts.textAt (m.1 + 2) = m.2 ∧ isVariable m.2 = false) ∧
      ∀ i ∈ [4, 15], ts.nextSignificant? i = some (i + 1) ∧ ts.kindAt? (i + 1) = some .openParen ∧
        ts.matching? (i + 1) = some (i + 2) := by decide +kernel
  obtain ⟨⟨root, root', root''⟩, names, calls⟩ := reads
  have member {last : Nat} {name : String} (mem : (last, name) ∈ [(2, "b"), (6, "c"), (11, "b"), (13, "c"), (20, "b"), (22, "c")]) :
      ts.MemberAt last name (last + 2) := by
    obtain ⟨operator, kind, text, label⟩ := names (last, name) mem
    exact ⟨⟨last + 1, operator⟩, kind, text, label⟩
  have call {last : Nat} {name : String} (here : ts.MemberAt last name (last + 2)) (mem : last + 2 ∈ [4, 15]) :
      ts.LinkAt last ⟨name, true⟩ (last + 4) := by
    obtain ⟨next, opens, closed⟩ := calls (last + 2) mem
    exact .call here next opens closed (Nat.lt_succ_self _)
  refine ⟨⟨root.1, root.2, rfl, ?_⟩, ⟨root'.1, root'.2, rfl, ?_⟩, ⟨root''.1, root''.2, rfl, ?_⟩⟩
  · exact .cons (call (member (by decide)) (by decide)) (.cons (.member (member (by decide))) (.nil 8))
  · exact .cons (.member (member (by decide))) (.cons (call (member (by decide)) (by decide)) (.nil 17))
  · exact .cons (.member (member (by decide))) (.cons (.member (member (by decide))) (.nil 24))

/-- The chain without a call differs from both others. -/
theorem chainType_eq_iff_called :
    let r := unboundResolver
    r.bindings.entries = [] ∧ r.chainType 2 8 ≠ r.chainType 20 24 ∧ r.chainType 11 17 ≠ r.chainType 20 24 := by
  intro r
  obtain ⟨first, second, third⟩ := chainAt_threeChains
  have unbound : r.bindings.entries = [] := rfl
  refine ⟨unbound, fun same => ?_, fun same => ?_⟩
  · have called := ((chainType_eq_iff unbound unbound first third rfl).1 same).2
    exact absurd called (by decide)
  · have called := ((chainType_eq_iff unbound unbound second third rfl).1 same).2
    exact absurd called (by decide)

/-- The text does not tell which of the members is called. -/
theorem chainType_ambiguous :
    let r := unboundResolver
    r.bindings.entries = [] ∧ r.tokens.ChainAt 2 "$a" [⟨"b", true⟩, ⟨"c", false⟩] 8 ∧
      r.tokens.ChainAt 11 "$a" [⟨"b", false⟩, ⟨"c", true⟩] 17 ∧
      r.chainType 2 8 = "*$a->b->c" ∧ r.chainType 11 17 = "*$a->b->c" := by
  intro r
  obtain ⟨first, second, -⟩ := chainAt_threeChains
  have settled : r.settle 2 "$a" = "$a" ∧ r.settle 11 "$a" = "$a" := by decide +kernel
  refine ⟨rfl, first, second, ?_, ?_⟩
  · rw [chainType_unbound rfl first, settled.1]
    rfl
  · rw [chainType_unbound rfl second, settled.2]
    rfl

end PhpRename.Resolver
