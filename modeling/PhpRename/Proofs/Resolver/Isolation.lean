import PhpRename.Proofs.Bindings.Lookup
import PhpRename.Proofs.Lexer.Scopes
import PhpRename.Proofs.TypeExpr.Text
import PhpRename.Workspace

/-!
# Local variables

The type of a local variable comes from the bindings of its own function or class: two resolvers for a
file that agree on these, all of classes, answer the same for it, whatever else they know
(`typeOf?_local`). Neither the global scope nor other scopes, files or classes play a part.
-/

set_option autoImplicit false

namespace PhpRename

/-- No scope that holds bindings is owned by the first token of a source. -/
theorem Lexer.bindingOwner_positive {source : Bytes} {index : Nat} {owner : ScopeOwner}
    (owned : (tokenize source)[index]?.bind (·.bindingOwner?) = some owner) : 0 < owner.index := by
  obtain ⟨t, ht, owned⟩ := Option.bind_eq_some_iff.1 owned
  obtain ⟨swept, hs, conditions⟩ := exists_swept ht
  have mem : owner ∈ swept.conditions := conditions ▸ List.mem_reverse.1 (List.mem_of_find?_eq_some owned)
  exact ((sweep_inOrder source).surrounded.sound index swept hs owner mem).1.positive

namespace Resolver

open TypeExpr

/-- A name is local to the function or class around a token: it is a plain variable other than the
present instance, and is not marked as global there. -/
structure LocalAt (r : Resolver) (index : Nat) (name : String) (owner : ScopeOwner) : Prop where
  owned : r.tokens[index]?.bind (·.bindingOwner?) = some owner
  plain : Plain name
  other : Ascii.lower name ≠ "$this"
  unmarked : r.bindings.isGlobal name r.file owner.index = false

/-- A plain variable other than the present instance stands for no class. -/
theorem selfClass?_of_plain {r : Resolver} {index : Nat} {name : String} (plain : Plain name)
    (other : Ascii.lower name ≠ "$this") : r.selfClass? index name = none := by
  obtain ⟨rest, chars⟩ := plain.exists_chars
  have first : (Ascii.lower name).toList.head? = some '$' := by
    rw [Ascii.lower, String.toList_ofList, chars]
    rfl
  rw [selfClass?]
  split
  case h_1 same => exact absurd same other
  case h_2 same => simp [same] at first
  case h_3 same => simp [same] at first
  case h_4 same => simp [same] at first
  case h_5 => rfl

namespace LocalAt

variable {r : Resolver} {index : Nat} {name : String} {owner : ScopeOwner} (h : r.LocalAt index name owner)
include h

theorem normalizeRoot_eq : r.normalizeRoot index name = name := by
  have noSelf : r.selfClass? index (rootOf name) = none := h.plain.rootOf_eq.symm ▸ selfClass?_of_plain h.plain h.other
  unfold normalizeRoot
  rw [noSelf]

theorem scopeOf_eq : r.scopeOf index name = owner.index := by
  rw [scopeOf, h.plain.unmarked_eq, if_pos h.plain.isVariable, h.owned]
  simp only [h.plain.rootOf_eq, h.unmarked, Bool.false_eq_true, if_false]

/-- A local variable is looked up in the scope of its owner and nowhere else. -/
theorem lookup?_eq (notFirst : owner.index ≠ 0) :
    r.lookup? index name = r.bindings.lookup? name r.file owner.index index := by
  have inside : ((owner.index : Int) != globalScope) = true := bne_iff_ne.2 (Int.natCast_ne_zero.2 notFirst)
  rw [lookup?]
  simp only [h.scopeOf_eq, inside, if_true, Option.or_none]

/-- Where its bindings are all of classes, a local variable has the type that is bound to it. -/
theorem typeOf?_eq (notFirst : owner.index ≠ 0)
    (settled : ∀ b ∈ r.bindings.ofName name r.file owner.index, specificityOf b.type = some 0) :
    r.typeOf? index name = r.bindings.lookup? name r.file owner.index index := by
  rw [typeOf?, typeWithin, typeWith_of_normalizeRoot h.normalizeRoot_eq, h.lookup?_eq notFirst]
  cases found : r.bindings.lookup? name r.file owner.index index with
  | none => rfl
  | some type =>
    obtain ⟨b, nearest, rfl⟩ := Bindings.exists_nearest found
    rw [Option.map_some, settled b nearest.mem, beq_self_eq_true, if_pos rfl]

end LocalAt

/-- Two resolvers for the tokens of one file hold the same of a name in a scope. They may know other
includes, classes and bindings. -/
structure Agrees (r r' : Resolver) (name : String) (scope : Int) : Prop where
  tokens : r'.tokens = r.tokens
  path : r'.path = r.path
  marked : r'.bindings.isGlobal name r.file scope = r.bindings.isGlobal name r.file scope
  bindings : ∀ b, b ∈ r.bindings.ofName name r.file scope ↔ b ∈ r'.bindings.ofName name r.file scope

/-- What is local to one of them is local to the other. -/
theorem LocalAt.congr {r r' : Resolver} {index : Nat} {name : String} {owner : ScopeOwner}
    (h : r.LocalAt index name owner) (agrees : r.Agrees r' name owner.index) : r'.LocalAt index name owner where
  owned := agrees.tokens ▸ h.owned
  plain := h.plain
  other := h.other
  unmarked := by
    rw [file, agrees.path, ← file, agrees.marked]
    exact h.unmarked

/-- **Local variables.** Two resolvers that agree on a variable that is local to a function or class
answer the same for it where its bindings there are all of classes, whatever else they know. The answer
is the type of the nearest of these bindings, and none where there are none. Each site has one binding,
as after any history of records. The tokens are those of a source, or any others whose first one does
not own the scope: that scope would be the global one. -/
theorem typeOf?_local {r r' : Resolver} {index : Nat} {name : String} {owner : ScopeOwner}
    (stream : (∃ source, r.tokens = Lexer.tokenize source) ∨ owner.index ≠ 0)
    (sites : r.bindings.OnePerSite) (sites' : r'.bindings.OnePerSite)
    (h : r.LocalAt index name owner) (agrees : r.Agrees r' name owner.index)
    (settled : ∀ b ∈ r.bindings.ofName name r.file owner.index, specificityOf b.type = some 0) :
    r'.typeOf? index name = r.typeOf? index name ∧
      (r.typeOf? index name = none ↔ r.bindings.ofName name r.file owner.index = []) ∧
      ∀ type, r.typeOf? index name = some type ↔
        ∃ b, r.bindings.Nearest name r.file owner.index index b ∧ b.type = type := by
  have notFirst : owner.index ≠ 0 := by
    obtain ⟨source, lexed⟩ | other := stream
    · exact (Lexer.bindingOwner_positive (lexed ▸ h.owned)).ne'
    · exact other
  have file : r'.file = r.file := congrArg Path.text agrees.path
  have answer := h.typeOf?_eq notFirst settled
  have answer' : r'.typeOf? index name = r'.bindings.lookup? name r.file owner.index index := by
    rw [← file]
    refine (h.congr agrees).typeOf?_eq notFirst fun b mem => settled b ((agrees.bindings b).2 ?_)
    rwa [← file]
  refine ⟨?_, ?_, fun type => ?_⟩
  · rw [answer, answer', Bindings.lookup?_congr sites sites' agrees.bindings]
  · rw [answer, Bindings.lookup?_eq_none_iff]
  · rw [answer, Bindings.lookup?_eq_some_iff sites]

/-- A parameter keeps its class, whatever its name holds at the top level and in an included file. -/
theorem typeOf?_local_parameter :
    let source := Utf8.encode "<?php include 'b.php'; $v = new Top; function f($v) { $v->run(); }"
    let w := Workspace.ofSources [(.ofText "/p/a.php", source), (.ofText "/p/b.php", Utf8.encode "<?php $v = new Other; class Foo {}")]
    let file := SourceFile.ofBytes (.ofText "/p/a.php") source
    let parameter : Binding := ⟨"/p/a.php", 16, "$v", "Foo", 20⟩
    let r := w.resolver file { entries := [parameter, ⟨"/p/b.php", 0, "$v", "Other", 2⟩, ⟨"/p/a.php", 0, "$v", "Top", 7⟩] }
    let r' := Workspace.resolver {} file { entries := [parameter] }
    r.typeOf? 25 "$v" = some "Foo" ∧ r'.typeOf? 25 "$v" = some "Foo" := by
  intro source w file parameter r r'
  have here : r.LocalAt 25 "$v" ⟨16, .functionBody⟩ := by
    constructor
    case owned => decide +kernel
    case plain => decide
    case other => decide
    case unmarked => rfl
  have only : r.bindings.ofName "$v" r.file 16 = [parameter] := by decide +kernel
  have only' : r'.bindings.ofName "$v" r.file 16 = [parameter] := by decide +kernel
  have agrees : r.Agrees r' "$v" 16 := ⟨rfl, rfl, rfl, fun b => only ▸ only' ▸ Iff.rfl⟩
  have isParameter : ∀ b ∈ r.bindings.ofName "$v" r.file 16, b = parameter := only ▸ fun b => List.mem_singleton.1
  have settled : ∀ b ∈ r.bindings.ofName "$v" r.file 16, specificityOf b.type = some 0 := fun b mem =>
    isParameter b mem ▸ by decide
  have answers := typeOf?_local (.inl ⟨source, rfl⟩) (by decide) (by decide) here agrees settled
  have nearest : r.bindings.Nearest "$v" r.file 16 25 parameter :=
    .upTo (only ▸ List.mem_singleton_self parameter) (by decide) fun c mem _ => isParameter c mem ▸ Int.le_refl _
  have typed := (answers.2.2 "Foo").2 ⟨parameter, nearest, rfl⟩
  exact ⟨typed, answers.1.trans typed⟩

end Resolver

end PhpRename
