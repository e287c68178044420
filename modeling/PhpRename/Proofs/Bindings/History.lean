import Mathlib.Data.Finset.Card
import PhpRename.Proofs.Bindings.Chain
import PhpRename.Proofs.Bindings.Lookup

/-!
# What a history of records leaves

The bindings after any run of operations are determined by what was recorded: each recorded site has
one binding, of the type recorded there last (`Recorded`). `replay_answers` says what the queries
answer after a run, and all that one more record changes.
-/

set_option autoImplicit false

namespace PhpRename

namespace Binding

variable {b c d : Binding}

theorem isAt_iff {file : String} {position : Int} : b.isAt file position = true ↔ b.site = (file, position) := by
  rw [isAt, Bool.and_eq_true, beq_iff_eq, beq_iff_eq, site, Prod.mk.injEq, and_comm]

/-- Rewriting keeps the site and the type of a binding. -/
theorem rebase_keeps (root type file : String) (scope : Int) (b : Binding) :
    (rebase root type file scope b).site = b.site ∧ (rebase root type file scope b).type = b.type := by
  rw [rebase]
  split
  · split <;> exact ⟨rfl, rfl⟩
  · exact ⟨rfl, rfl⟩

theorem isAt_rebase (root type file : String) (scope : Int) (b : Binding) (file' : String) (position : Int) :
    (rebase root type file scope b).isAt file' position = b.isAt file' position := by
  rw [Bool.eq_iff_iff, isAt_iff, isAt_iff, (rebase_keeps ..).1]

/-- Names that are put together from clean bindings are clean. -/
theorem Becomes.clean (becomes : b.Becomes d c) (hb : b.Clean) (hd : d.Clean) : c.Clean := by
  cases becomes with
  | chain suffix is =>
    refine ⟨?_, hd.2⟩
    have noSuffix : '\x00' ∉ suffix.toList := fun mem => hd.1 (by
      rw [is.name, String.toList_append, List.mem_append]
      exact .inr mem)
    simp only [String.toList_append, List.mem_append, not_or]
    exact ⟨⟨hb.2, by decide⟩, noSuffix⟩
  | other => exact hd

end Binding

namespace Bindings

variable {s : Bindings} {b c : Binding}

/-! ## One record -/

theorem others_record (s : Bindings) (b : Binding) (d : Binding) :
    d ∈ s.entries.filter (!·.isAt b.file b.position) ↔ d ∈ s.entries ∧ d.site ≠ b.site := by
  rw [List.mem_filter, Bool.not_eq_true', ← Bool.not_eq_true, Binding.isAt_iff]
  rfl

/-- A record binds at its site and rewrites the bindings at all others. -/
theorem mem_record : c ∈ (s.record b).entries ↔
    c = b ∨ ∃ d ∈ s.entries, d.site ≠ b.site ∧ c = Binding.rebase b.name b.type b.file b.scope d := by
  simp only [record, List.mem_map, List.mem_cons, others_record]
  constructor
  · rintro ⟨d, rfl | ⟨mem, other⟩, rfl⟩
    · exact .inl (Binding.rebase_self d)
    · exact .inr ⟨d, mem, other, rfl⟩
  · rintro (rfl | ⟨d, mem, other, rfl⟩)
    · exact ⟨c, .inl rfl, Binding.rebase_self c⟩
    · exact ⟨d, .inr ⟨mem, other⟩, rfl⟩

theorem sites_record (s : Bindings) (b : Binding) : (s.record b).entries.map Binding.site =
    b.site :: (s.entries.filter (!·.isAt b.file b.position)).map Binding.site := by
  have kept : Binding.site ∘ Binding.rebase b.name b.type b.file b.scope = Binding.site :=
    funext fun d => (Binding.rebase_keeps ..).1
  rw [record, List.map_map, kept, List.map_cons]

theorem OnePerSite.record (sites : s.OnePerSite) (b : Binding) : (s.record b).OnePerSite := by
  rw [OnePerSite, sites_record, List.nodup_cons]
  refine ⟨fun mem => ?_, sites.sublist (List.filter_sublist.map Binding.site)⟩
  obtain ⟨d, hd, same⟩ := List.mem_map.1 mem
  exact ((others_record s b d).1 hd).2 same

/-- The sites after a record. -/
theorem mem_sites_record {site : String × Int} : site ∈ (s.record b).entries.map Binding.site ↔
    site ∈ s.entries.map Binding.site ∨ site = b.site := by
  rw [sites_record, List.mem_cons, or_comm]
  constructor
  · refine Or.imp_left fun mem => ?_
    obtain ⟨d, hd, rfl⟩ := List.mem_map.1 mem
    exact List.mem_map_of_mem ((others_record s b d).1 hd).1
  · intro mem
    by_cases same : site = b.site
    · exact .inr same
    · obtain ⟨d, hd, rfl⟩ := List.mem_map.1 (mem.resolve_right same)
      exact .inl (List.mem_map_of_mem ((others_record s b d).2 ⟨hd, same⟩))

/-- Bindings that give way to a record are at no other site. -/
theorem find?_others {file : String} {position : Int} (away : b.isAt file position = false) :
    (s.entries.filter (!·.isAt b.file b.position)).find? (·.isAt file position) =
      s.entries.find? (·.isAt file position) := by
  rw [List.find?_filter]
  congr 1
  funext d
  rw [Bool.eq_iff_iff, decide_eq_true_iff]
  refine and_iff_right_of_imp fun there => ?_
  rw [Bool.not_eq_true', ← Bool.not_eq_true]
  intro same
  have here : b.isAt file position = true :=
    Binding.isAt_iff.2 ((Binding.isAt_iff.1 same).symm.trans (Binding.isAt_iff.1 there))
  exact Bool.false_ne_true (away.symm.trans here)

/-- A record changes the type at its own site only. -/
theorem typeAt?_record (s : Bindings) (b : Binding) (file : String) (position : Int) :
    (s.record b).typeAt? file position =
      if b.isAt file position then some b.type else s.typeAt? file position := by
  have types : Binding.type ∘ Binding.rebase b.name b.type b.file b.scope = Binding.type :=
    funext fun d => (Binding.rebase_keeps ..).2
  have places : (·.isAt file position) ∘ Binding.rebase b.name b.type b.file b.scope = (·.isAt file position) :=
    funext fun d => Binding.isAt_rebase ..
  rw [typeAt?, record, List.find?_map, places, Option.map_map, types, List.find?_cons]
  cases away : b.isAt file position with
  | true => rfl
  | false => rw [find?_others away, if_neg Bool.false_ne_true, typeAt?]

theorem entries_markGlobal (s : Bindings) (m : GlobalMark) : (s.markGlobal m).entries = s.entries := by
  rw [markGlobal]
  split <;> rfl

/-! ## A run of operations -/

/-- An operation that changes bindings or marks. -/
inductive Operation where
  | record (b : Binding)
  | markGlobal (m : GlobalMark)

/-- The bindings after an operation. -/
def apply (s : Bindings) : Operation → Bindings
  | .record b => s.record b
  | .markGlobal m => s.markGlobal m

/-- The bindings after some operations, where none were before. -/
def replay (operations : List Operation) : Bindings := operations.foldl apply {}

/-- What an operation records. -/
def Operation.recorded? : Operation → Option Binding
  | .record b => some b
  | .markGlobal _ => none

/-- What some operations record, in order. -/
def recorded (operations : List Operation) : List Binding := operations.filterMap Operation.recorded?

/-- The last record at a site. -/
def lastAt? (records : List Binding) (file : String) (position : Int) : Option Binding :=
  records.reverse.find? (·.isAt file position)

/-- The bindings are what some records leave. -/
structure Recorded (records : List Binding) (s : Bindings) : Prop where
  sites : s.OnePerSite
  bound : ∀ site, site ∈ s.entries.map Binding.site ↔ site ∈ records.map Binding.site
  latest : ∀ file position, s.typeAt? file position = (lastAt? records file position).map (·.type)
  clean : (∀ b ∈ records, b.Clean) → ∀ b ∈ s.entries, b.Clean

namespace Recorded

variable {records : List Binding}

theorem nil : Recorded [] {} where
  sites := List.nodup_nil
  bound _ := Iff.rfl
  latest _ _ := rfl
  clean _ _ mem := nomatch mem

/-- Marks do not count. -/
theorem congr {t : Bindings} (h : Recorded records s) (same : t.entries = s.entries) : Recorded records t := by
  cases s
  cases t
  cases same
  exact ⟨h.sites, h.bound, h.latest, h.clean⟩

/-- One more record. -/
theorem record (h : Recorded records s) (b : Binding) : Recorded (records ++ [b]) (s.record b) := by
  constructor
  case sites => exact h.sites.record b
  case bound =>
    intro site
    rw [mem_sites_record, h.bound, List.map_append, List.mem_append, List.map_singleton, List.mem_singleton]
  case latest =>
    intro file position
    rw [typeAt?_record, lastAt?, List.reverse_append, List.reverse_singleton, List.singleton_append, List.find?_cons]
    cases b.isAt file position with
    | true => rfl
    | false => exact h.latest file position
  case clean =>
    intro clean c mem
    have old := h.clean fun d hd => clean d (List.mem_append_left _ hd)
    have new := clean b (List.mem_append_right _ (List.mem_singleton_self b))
    obtain rfl | ⟨d, hd, -, rfl⟩ := mem_record.1 mem
    · exact new
    · exact ((Binding.becomes_iff (old d hd).1).2 rfl).clean new (old d hd)

end Recorded

/-- What a run leaves is what it records. -/
theorem recorded_replay (operations : List Operation) : Recorded (recorded operations) (replay operations) := by
  induction operations using List.reverseRecOn with
  | nil => exact .nil
  | append_singleton operations operation ih =>
    rw [replay, List.foldl_append, List.foldl_cons, List.foldl_nil, ← replay, recorded, List.filterMap_append]
    cases operation with
    | record b => exact ih.record b
    | markGlobal m =>
      rw [List.filterMap_cons_none rfl, List.filterMap_nil, List.append_nil]
      exact ih.congr (entries_markGlobal _ m)

/-- **What a history leaves.** After any run of operations each site has at most one binding, the
type at a site is the one recorded there last, as many bindings are kept as sites were recorded, and
a look-up finds the nearest binding of a name. One more record, of texts free of NUL, binds at its
site and makes chains rooted at its name start with its type; it changes nothing else. -/
theorem replay_answers (operations : List Operation) :
    let s := replay operations
    s.OnePerSite ∧
      (∀ file position, s.typeAt? file position = (lastAt? (recorded operations) file position).map (·.type)) ∧
      s.count = ((recorded operations).map Binding.site).toFinset.card ∧
      (∀ name file scope position type, s.lookup? name file scope position = some type ↔
        ∃ b, s.Nearest name file scope position b ∧ b.type = type) ∧
      ∀ b, (∀ c ∈ b :: recorded operations, c.Clean) →
        (s.record b).globals = s.globals ∧
          ∀ c, c ∈ (s.record b).entries ↔ c = b ∨ ∃ d ∈ s.entries, d.site ≠ b.site ∧ b.Becomes d c := by
  intro s
  have h := recorded_replay operations
  refine ⟨h.sites, h.latest, ?_, fun _ _ _ _ _ => lookup?_eq_some_iff h.sites, fun b clean => ⟨rfl, fun c => ?_⟩⟩
  · have same : ((recorded operations).map Binding.site).toFinset = (s.entries.map Binding.site).toFinset :=
      Finset.ext fun site => by rw [List.mem_toFinset, List.mem_toFinset, h.bound]
    rw [same, List.toFinset_card_of_nodup h.sites, List.length_map, count]
  · have old := h.clean fun d hd => clean d (List.mem_cons_of_mem b hd)
    rw [mem_record]
    refine or_congr_right (exists_congr fun d => and_congr_right fun hd => and_congr_right fun _ => ?_)
    exact (Binding.becomes_iff (old d hd).1).symm

/-- A chain below a name outside ASCII moves to the global scope, and one without suffix stays. -/
theorem replay_answers_rewritten :
    let operations : List Operation := [.record ⟨"/p/a.php", 4, "$é->x->y", "T", 5⟩, .markGlobal ⟨"/p/a.php", 4, "$g", 6⟩,
      .record ⟨"/p/a.php", 4, "$é->", "U", 7⟩, .record ⟨"/p/a.php", 4, "$é->z", "V", 8⟩]
    let b : Binding := ⟨"/p/a.php", 4, "$é", "Foo", 8⟩
    let s := (replay operations).record b
    (∀ c ∈ b :: recorded operations, c.Clean) ∧ ⟨"/p/a.php", 0, "Foo->x->y", "T", 5⟩ ∈ s.entries ∧
      ⟨"/p/a.php", 4, "$é->", "U", 7⟩ ∈ s.entries := by
  intro operations b s
  have clean : ∀ c ∈ b :: recorded operations, c.Clean := by decide
  have effect := ((replay_answers operations).2.2.2.2 b clean).2
  have chained : b.Becomes ⟨"/p/a.php", 4, "$é->x->y", "T", 5⟩ ⟨"/p/a.php", 0, "Foo->x->y", "T", 5⟩ :=
    (Binding.becomes_iff (by decide)).2 (by decide +kernel)
  have kept : b.Becomes ⟨"/p/a.php", 4, "$é->", "U", 7⟩ ⟨"/p/a.php", 4, "$é->", "U", 7⟩ :=
    (Binding.becomes_iff (by decide)).2 (by decide +kernel)
  exact ⟨clean, (effect _).2 (.inr ⟨_, by decide +kernel, by decide, chained⟩),
    (effect _).2 (.inr ⟨_, by decide +kernel, by decide, kept⟩)⟩

end Bindings

end PhpRename
