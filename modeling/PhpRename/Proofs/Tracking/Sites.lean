import Mathlib.Data.List.Basic
import PhpRename.Bindings.Basic

/-!
# Bindings at their sites

A binding that is recorded at a new site comes in front of the others and changes none of them, as
long as their names are no chains. Where the sites descend, a look-up finds the nearest binding of
the name before its position, or the nearest one behind it: `lookup?_of_split`.
-/

set_option autoImplicit false

namespace PhpRename

theorem Text.eq_append_of_after? {part cs rest : List Char} (h : after? part cs = some rest) : cs = part ++ rest := by
  induction part generalizing cs with
  | nil =>
    rw [after?] at h
    exact Option.some.inj h
  | cons p part ih =>
    cases cs with
    | nil => cases h
    | cons c cs =>
      rw [after?] at h
      split at h
      · rename_i same
        rw [eq_of_beq same, ih h, List.cons_append]
      · cases h

namespace Binding

/-- A name without `-` is no chain. -/
theorem chainTail?_of_notMem {root name : String} (h : '-' ∉ name.toList) : chainTail? root name = none := by
  rw [chainTail?]
  split
  · rename_i c rest found
    refine absurd ?_ h
    have begins := Text.eq_append_of_after? found
    have mem : '-' ∈ visible name := by
      rw [begins, String.toList_append]
      simp [TypeExpr.separator]
    exact (List.takeWhile_sublist _).subset mem
  · rfl

theorem rebase_of_notMem {b : Binding} (h : '-' ∉ b.name.toList) (root type file : String) (scope : Int) :
    rebase root type file scope b = b := by
  rw [rebase, chainTail?_of_notMem h]
  exact ite_self _

end Binding

namespace Bindings

variable {s : Bindings} {b : Binding}

/-! ## Recording -/

/-- What is bound at a new site comes in front. -/
theorem record_of_fresh (fresh : ∀ c ∈ s.entries, c.position ≠ b.position)
    (plain : ∀ c ∈ b :: s.entries, '-' ∉ c.name.toList) : s.record b = { s with entries := b :: s.entries } := by
  have others : s.entries.filter (!·.isAt b.file b.position) = s.entries := by
    refine List.filter_eq_self.2 fun c mem => ?_
    rw [Binding.isAt, beq_false_of_ne (fresh c mem), Bool.false_and, Bool.not_false]
  have same : (b :: s.entries).map (Binding.rebase b.name b.type b.file b.scope) = b :: s.entries :=
    (List.map_congr_left fun c mem => Binding.rebase_of_notMem (plain c mem) ..).trans (List.map_id _)
  rw [record, others, same]

/-- Each site shows the type of its binding. -/
theorem typeAt?_of_mem (sites : s.entries.Pairwise fun c d => d.position < c.position) (mem : b ∈ s.entries) :
    s.typeAt? b.file b.position = some b.type := by
  obtain ⟨newer, older, split⟩ := List.append_of_mem mem
  have found : s.entries.find? (·.isAt b.file b.position) = some b := by
    refine List.find?_eq_some_iff_append.2 ⟨by simp [Binding.isAt], newer, older, split, fun c hc => ?_⟩
    rw [split, List.pairwise_append] at sites
    have less : b.position < c.position := sites.2.2 c hc b (List.mem_cons_self ..)
    rw [Binding.isAt, beq_false_of_ne (Int.ne_of_gt less), Bool.false_and, Bool.not_false]
  rw [typeAt?, found, Option.map_some]

/-! ## Look-up among descending sites -/

theorem latest?_of_descending {l : List Binding} (order : l.Pairwise fun b c => c.position < b.position) :
    latest? l = l.head? := by
  induction l with
  | nil => rfl
  | cons b l ih =>
    obtain ⟨below, order⟩ := List.pairwise_cons.1 order
    rw [latest?, ih order, List.head?_cons]
    cases l with
    | nil => rfl
    | cons c l =>
      have less := below c (List.mem_cons_self ..)
      rw [List.head?_cons]
      exact if_neg (by omega)

theorem earliest?_of_descending {l : List Binding} (order : l.Pairwise fun b c => c.position < b.position) :
    earliest? l = l.getLast? := by
  induction l with
  | nil => rfl
  | cons b l ih =>
    obtain ⟨below, order⟩ := List.pairwise_cons.1 order
    rw [earliest?, ih order]
    cases last : l.getLast? with
    | none =>
      rw [List.getLast?_eq_none_iff.1 last]
      rfl
    | some c =>
      rw [List.getLast?_cons, last, Option.getD_some]
      exact if_pos (below c (List.mem_of_getLast? last))

/-- A look-up finds the last binding of the name before its position, or else the first one behind. -/
theorem lookup?_of_split {xs ys : List Binding} {file : String} {scope position : Int}
    (entries : s.entries = (xs ++ ys).reverse) (order : (xs ++ ys).Pairwise fun b c => b.position < c.position)
    (home : ∀ b ∈ xs ++ ys, b.file = file ∧ b.scope = scope) (before : ∀ b ∈ xs, b.position ≤ position)
    (behind : ∀ b ∈ ys, position < b.position) (name : String) :
    s.lookup? name file scope position =
      (((xs.filter (·.name == name)).getLast?).or (ys.filter (·.name == name)).head?).map (·.type) := by
  have named : s.ofName name file scope = ((xs ++ ys).filter (·.name == name)).reverse := by
    rw [ofName, entries, ← List.filter_reverse]
    refine List.filter_congr fun b mem => ?_
    obtain ⟨here, there⟩ := home b (List.mem_reverse.1 mem)
    rw [here, there, beq_self_eq_true, beq_self_eq_true, Bool.true_and, Bool.and_true]
  have descending {zs : List Binding} (sub : zs.Sublist (xs ++ ys)) :
      zs.reverse.Pairwise fun b c => c.position < b.position := List.pairwise_reverse.2 (order.sublist sub)
  have upTo : (s.ofName name file scope).filter (·.position ≤ position) = (xs.filter (·.name == name)).reverse := by
    have all : (xs.filter (·.name == name)).filter (·.position ≤ position) = xs.filter (·.name == name) :=
      List.filter_eq_self.2 fun b mem => decide_eq_true (before b (List.mem_of_mem_filter mem))
    have none : (ys.filter (·.name == name)).filter (·.position ≤ position) = [] :=
      List.filter_eq_nil_iff.2 fun b mem => by
        have := behind b (List.mem_of_mem_filter mem)
        simp only [decide_eq_true_eq]
        omega
    rw [named, List.filter_reverse, List.filter_append, List.filter_append, all, none, List.append_nil]
  have after : (s.ofName name file scope).filter (position < ·.position) = (ys.filter (·.name == name)).reverse := by
    have none : (xs.filter (·.name == name)).filter (position < ·.position) = [] :=
      List.filter_eq_nil_iff.2 fun b mem => by
        have := before b (List.mem_of_mem_filter mem)
        simp only [decide_eq_true_eq]
        omega
    have all : (ys.filter (·.name == name)).filter (position < ·.position) = ys.filter (·.name == name) :=
      List.filter_eq_self.2 fun b mem => decide_eq_true (behind b (List.mem_of_mem_filter mem))
    rw [named, List.filter_reverse, List.filter_append, List.filter_append, all, none, List.nil_append]
  rw [lookup?]
  simp only [upTo, after]
  rw [latest?_of_descending (descending (List.filter_sublist.trans (List.sublist_append_left _ _))),
    earliest?_of_descending (descending (List.filter_sublist.trans (List.sublist_append_right _ _))),
    List.head?_reverse, List.getLast?_reverse]

end Bindings

end PhpRename
