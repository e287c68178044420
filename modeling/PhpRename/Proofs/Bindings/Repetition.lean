import PhpRename.Proofs.Bindings.History

/-!
# Recording the same binding again

A record puts its type in the place of its name at the root of every chain. Where the type leads back to
the name, the chains that it makes are rooted at the name again, and the same record rewrites them once more:
`record_record` says just when it leaves all bindings as they are.
-/

set_option autoImplicit false

namespace PhpRename

namespace Binding

variable {b d : Binding} {suffix suffix' : String}

theorem append_separator_inj {root : String} : root ++ "->" ++ suffix = root ++ "->" ++ suffix' ↔ suffix = suffix' := by
  simp only [← String.toList_inj, String.toList_append, List.append_cancel_left_eq]

theorem Roots.unique (roots : b.Roots d suffix) (roots' : b.Roots d suffix') : suffix = suffix' :=
  append_separator_inj.1 (roots.name.symm.trans roots'.name)

theorem graft_inj : b.graft d suffix = b.graft d suffix' ↔ suffix = suffix' :=
  ⟨fun same => append_separator_inj.1 (congrArg Binding.name same), congrArg (b.graft d)⟩

/-- Rewriting a binding again changes nothing unless it has become a chain rooted at the name again, with another
suffix. -/
theorem rebase_rebase_iff :
    rebase b.name b.type b.file b.scope (rebase b.name b.type b.file b.scope d) = rebase b.name b.type b.file b.scope d ↔
      ∀ suffix suffix', b.Roots d suffix → b.Roots (b.graft d suffix) suffix' → suffix' = suffix := by
  by_cases chain : ∃ suffix, b.Roots d suffix
  · obtain ⟨suffix, roots⟩ := chain
    rw [rebase_of_roots roots]
    by_cases again : ∃ suffix', b.Roots (b.graft d suffix) suffix'
    · obtain ⟨suffix', roots'⟩ := again
      have twice : b.graft (b.graft d suffix) suffix' = b.graft d suffix' := rfl
      rw [rebase_of_roots roots', twice, graft_inj]
      constructor
      · rintro rfl other other' there there'
        obtain rfl := there.unique roots
        exact there'.unique roots'
      · intro same
        exact same suffix suffix' roots roots'
    · refine iff_of_true (rebase_of_not_roots (not_exists.1 again)) fun other other' there there' => ?_
      obtain rfl := there.unique roots
      exact absurd ⟨other', there'⟩ again
  · rw [rebase_of_not_roots (not_exists.1 chain), rebase_of_not_roots (not_exists.1 chain)]
    exact iff_of_true rfl fun suffix _ roots => absurd ⟨suffix, roots⟩ chain

/-! ### Types that lead back to the name -/

/-- Where one text is two chains, their roots are the same, or one starts with the other and the separator. -/
theorem roots_of_append_eq {root root' rest rest' : String} (same : root ++ "->" ++ rest = root' ++ "->" ++ rest') :
    root = root' ∨ (∃ r, root = root' ++ "->" ++ r) ∨ ∃ r, root' = root ++ "->" ++ r := by
  -- What the longer root has more is empty or begins with a separator: the two do not overlap.
  have more {c us vs : List Char} (lined : "->".toList ++ us = c ++ ("->".toList ++ vs)) :
      c = [] ∨ ∃ r, c = "->".toList ++ r := by
    obtain _ | ⟨x, _ | ⟨y, r⟩⟩ := c
    · exact .inl rfl
    · cases lined
    · cases lined
      exact .inr ⟨r, rfl⟩
  have spelled {one other : String} {r : List Char} (longer : one.toList = other.toList ++ ("->".toList ++ r)) :
      ∃ r, one = other ++ "->" ++ r :=
    ⟨String.ofList r, by simp [← String.toList_inj, longer]⟩
  rw [← String.toList_inj] at same
  simp only [String.toList_append, List.append_assoc] at same
  obtain ⟨c, longer, lined⟩ | ⟨c, longer, lined⟩ := List.append_eq_append_iff.1 same
  · obtain rfl | ⟨r, rfl⟩ := more lined
    · exact .inl (String.toList_inj.1 (by rw [longer, List.append_nil]))
    · exact .inr (.inr (spelled longer))
  · obtain rfl | ⟨r, rfl⟩ := more lined
    · exact .inl (String.toList_inj.1 (by rw [longer, List.append_nil]))
    · exact .inr (.inl (spelled longer))

/-- What becomes a chain rooted at the name again starts with both the type and the name. -/
theorem Roots.type_or_name (roots : b.Roots (b.graft d suffix) suffix') :
    b.type = b.name ∨ (∃ rest, b.type = b.name ++ "->" ++ rest) ∨ ∃ rest, b.name = b.type ++ "->" ++ rest := by
  let name := (b.graft d suffix).name
  have hidden : name = String.ofList (visible name) ++ String.ofList (name.toList.dropWhile (· != '\x00')) := by
    rw [← String.ofList_append, visible, List.takeWhile_append_dropWhile, String.ofList_toList]
  rw [roots.name, String.append_assoc] at hidden
  exact roots_of_append_eq hidden

/-- A name that is its own type keeps the suffix. -/
theorem Roots.graft_same (roots : b.Roots d suffix) (same : b.type = b.name)
    (roots' : b.Roots (b.graft d suffix) suffix') : suffix' = suffix := by
  have seen : visible (String.ofList (visible d.name)) = visible d.name := by
    rw [visible, String.toList_ofList]
    exact List.takeWhile_idem ..
  have kept : (b.graft d suffix).name = String.ofList (visible d.name) := by rw [graft, same, roots.name]
  have name := roots'.name
  rw [kept, seen, roots.name] at name
  exact (append_separator_inj.1 name).symm

end Binding

namespace Bindings

/-- A record rewrites the bindings at all other sites. -/
theorem entries_record (s : Bindings) (b : Binding) : (s.record b).entries =
    b :: (s.entries.filter (!·.isAt b.file b.position)).map (Binding.rebase b.name b.type b.file b.scope) := by
  rw [record, List.map_cons, Binding.rebase_self]

/-- The bindings at other sites after a record are those before it, rewritten. -/
theorem others_record_eq (s : Bindings) (b : Binding) : (s.record b).entries.filter (!·.isAt b.file b.position) =
    (s.entries.filter (!·.isAt b.file b.position)).map (Binding.rebase b.name b.type b.file b.scope) := by
  have here : b.isAt b.file b.position = true := Binding.isAt_iff.2 rfl
  rw [entries_record, List.filter_cons_of_neg (by simp [here]), List.filter_eq_self]
  intro c mem
  obtain ⟨d, hd, rfl⟩ := List.mem_map.1 mem
  rw [Binding.isAt_rebase]
  exact (List.mem_filter.1 hd).2

/-- Just one binding is left at the site. -/
theorem filter_isAt_record (s : Bindings) (b : Binding) :
    (s.record b).entries.filter (·.isAt b.file b.position) = [b] := by
  have here : b.isAt b.file b.position = true := Binding.isAt_iff.2 rfl
  have others : ((s.record b).entries.filter (!·.isAt b.file b.position)).filter (·.isAt b.file b.position) = [] := by
    rw [List.filter_filter, List.filter_eq_nil_iff]
    simp
  rw [others_record_eq] at others
  rw [entries_record, List.filter_cons, if_pos here, others]

/-- **A record again.** The same record twice leaves one binding at its site. All bindings stay as the first record
left them unless one of them has become a chain rooted at the name again, with another suffix. That needs a type that
starts with the name and a separator, or a name that starts with the type and one. -/
theorem record_record (s : Bindings) (b : Binding) :
    ((s.record b).record b).entries.filter (·.isAt b.file b.position) = [b] ∧
      ((s.record b).record b = s.record b ↔ ∀ d ∈ s.entries, d.site ≠ b.site →
        ∀ suffix suffix', b.Roots d suffix → b.Roots (b.graft d suffix) suffix' → suffix' = suffix) ∧
      ((∃ rest, b.type = b.name ++ "->" ++ rest) ∨ (∃ rest, b.name = b.type ++ "->" ++ rest) ∨
        (s.record b).record b = s.record b) := by
  have settled : (s.record b).record b = s.record b ↔ ∀ d ∈ s.entries, d.site ≠ b.site →
      ∀ suffix suffix', b.Roots d suffix → b.Roots (b.graft d suffix) suffix' → suffix' = suffix := by
    have entries : (s.record b).record b = s.record b ↔ ((s.record b).record b).entries = (s.record b).entries :=
      ⟨congrArg Bindings.entries, fun same => congrArg (fun entries => { s with entries }) same⟩
    rw [entries, entries_record (s.record b), others_record_eq, entries_record, List.cons_eq_cons,
      and_iff_right rfl, List.map_map, List.map_inj_left]
    simp only [others_record, and_imp, Function.comp_apply, Binding.rebase_rebase_iff]
  refine ⟨filter_isAt_record _ b, settled, ?_⟩
  rw [settled]
  by_contra! apart
  obtain ⟨longer, shorter, d, mem, other, suffix, suffix', roots, roots', differ⟩ := apart
  obtain same | ⟨rest, below⟩ | ⟨rest, above⟩ := roots'.type_or_name
  · exact differ (roots.graft_same same roots')
  · exact longer rest below
  · exact shorter rest above

/-- With a type below the name, a chain grows by each record. -/
theorem record_record_grows :
    let s := ({} : Bindings).record ⟨"/p/a.php", 4, "$a->c", "T", 5⟩
    let b : Binding := ⟨"/p/a.php", 4, "$a", "$a->b", 9⟩
    (s.record b).entries = [b, ⟨"/p/a.php", 4, "$a->b->c", "T", 5⟩] ∧
      ((s.record b).record b).entries = [b, ⟨"/p/a.php", 4, "$a->b->b->c", "T", 5⟩] ∧
      (s.record b).record b ≠ s.record b := by
  decide +kernel

end Bindings

end PhpRename
