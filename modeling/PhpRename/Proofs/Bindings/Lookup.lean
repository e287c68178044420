import Mathlib.Data.List.Nodup
import PhpRename.Bindings.Basic

/-!
# What a look-up finds

Where each site has one binding, a look-up finds the type of the latest binding of the name up to
its position, or else of the earliest one behind: `lookup?_eq_some_iff`. So it depends on the
bindings of the name alone, and not on their order (`lookup?_congr`).
-/

set_option autoImplicit false

namespace PhpRename

/-- The site of a binding. -/
def Binding.site (b : Binding) : String × Int := (b.file, b.position)

namespace Bindings

variable {s t : Bindings} {name file : String} {scope position : Int} {b : Binding}

/-- No two bindings have the same site. -/
def OnePerSite (s : Bindings) : Prop := (s.entries.map Binding.site).Nodup

instance (s : Bindings) : Decidable s.OnePerSite := inferInstanceAs (Decidable (List.Nodup _))

theorem mem_ofName :
    b ∈ s.ofName name file scope ↔ b ∈ s.entries ∧ b.name = name ∧ b.file = file ∧ b.scope = scope := by
  simp only [ofName, List.mem_filter, Bool.and_eq_true, beq_iff_eq]
  tauto

/-- The binding that answers for a name as seen from a position. -/
inductive Nearest (s : Bindings) (name file : String) (scope position : Int) (b : Binding) : Prop
  /-- The latest of the name's bindings up to the position. -/
  | upTo (mem : b ∈ s.ofName name file scope) (before : b.position ≤ position)
      (latest : ∀ c ∈ s.ofName name file scope, c.position ≤ position → c.position ≤ b.position)
  /-- The earliest of those behind the position, where none is up to it. -/
  | behind (mem : b ∈ s.ofName name file scope) (after : ∀ c ∈ s.ofName name file scope, position < c.position)
      (earliest : ∀ c ∈ s.ofName name file scope, b.position ≤ c.position)

/-! ## The latest and the earliest entry -/

/-- The entry whose position ranks lowest. -/
def lowest? (rank : Int → Int) : List Binding → Option Binding
  | [] => none
  | b :: rest =>
    match lowest? rank rest with
    | some c => if rank c.position < rank b.position then some c else some b
    | none => some b

theorem latest?_eq (l : List Binding) : latest? l = lowest? (- ·) l := by
  induction l with
  | nil => rfl
  | cons b l ih =>
    rw [latest?, lowest?, ih]
    cases lowest? (- ·) l with
    | none => rfl
    | some c => exact if_congr Int.neg_lt_neg_iff.symm rfl rfl

theorem earliest?_eq (l : List Binding) : earliest? l = lowest? id l := by
  induction l with
  | nil => rfl
  | cons b l ih =>
    rw [earliest?, lowest?, ih]
    cases lowest? id l <;> rfl

variable {rank : Int → Int} {l : List Binding}

theorem lowest?_eq_none_iff : lowest? rank l = none ↔ l = [] := by
  cases l with
  | nil => exact iff_of_true rfl rfl
  | cons b l =>
    rw [lowest?]
    split
    · split <;> simp
    · simp

theorem lowest?_spec (h : lowest? rank l = some b) : b ∈ l ∧ ∀ c ∈ l, rank b.position ≤ rank c.position := by
  induction l generalizing b with
  | nil => cases h
  | cons d l ih =>
    rw [lowest?] at h
    split at h
    · rename_i e found
      obtain ⟨mem, lowest⟩ := ih found
      split at h
      · rename_i less
        obtain rfl := Option.some.inj h
        exact ⟨List.mem_cons_of_mem d mem, List.forall_mem_cons.2 ⟨Int.le_of_lt less, lowest⟩⟩
      · rename_i least
        obtain rfl := Option.some.inj h
        exact ⟨List.mem_cons_self .., List.forall_mem_cons.2
          ⟨Int.le_refl _, fun c hc => Int.le_trans (Int.not_lt.1 least) (lowest c hc)⟩⟩
    · rename_i none
      obtain rfl := Option.some.inj h
      rw [lowest?_eq_none_iff.1 none]
      exact ⟨List.mem_cons_self .., List.forall_mem_cons.2 ⟨Int.le_refl _, List.forall_mem_nil _⟩⟩

/-! ## Look-up -/

/-- A look-up finds the type of the nearest binding. -/
theorem exists_nearest {type : String} (h : s.lookup? name file scope position = some type) :
    ∃ b, s.Nearest name file scope position b ∧ b.type = type := by
  rw [lookup?] at h
  simp only [latest?_eq, earliest?_eq] at h
  obtain ⟨b, found, typed⟩ := Option.map_eq_some_iff.1 h
  refine ⟨b, ?_, typed⟩
  obtain found | ⟨none, found⟩ := Option.or_eq_some_iff.1 found
  · obtain ⟨mem, latest⟩ := lowest?_spec found
    simp only [List.mem_filter, decide_eq_true_eq] at mem latest
    exact .upTo mem.1 mem.2 fun c hc before => Int.neg_le_neg_iff.1 (latest c ⟨hc, before⟩)
  · obtain ⟨mem, earliest⟩ := lowest?_spec found
    have noneUpTo := List.filter_eq_nil_iff.1 (lowest?_eq_none_iff.1 none)
    simp only [List.mem_filter, decide_eq_true_eq] at mem earliest
    have after : ∀ c ∈ s.ofName name file scope, position < c.position := fun c hc =>
      Int.not_le.1 fun before => noneUpTo c hc (decide_eq_true before)
    exact .behind mem.1 after fun c hc => earliest c ⟨hc, after c hc⟩

theorem lookup?_eq_none_iff : s.lookup? name file scope position = none ↔ s.ofName name file scope = [] := by
  rw [lookup?]
  simp only [latest?_eq, earliest?_eq, Option.map_eq_none_iff, Option.or_eq_none_iff, lowest?_eq_none_iff]
  constructor
  · rintro ⟨upTo, behind⟩
    refine List.eq_nil_iff_forall_not_mem.2 fun c mem => ?_
    have after := List.filter_eq_nil_iff.1 upTo c mem
    have before := List.filter_eq_nil_iff.1 behind c mem
    simp only [decide_eq_true_eq] at after before
    omega
  · intro none
    rw [none]
    exact ⟨rfl, rfl⟩

theorem OnePerSite.eq_of_position (sites : s.OnePerSite) {b c : Binding} (hb : b ∈ s.ofName name file scope)
    (hc : c ∈ s.ofName name file scope) (same : b.position = c.position) : b = c := by
  obtain ⟨hb, -, fileB, -⟩ := mem_ofName.1 hb
  obtain ⟨hc, -, fileC, -⟩ := mem_ofName.1 hc
  exact List.inj_on_of_nodup_map sites hb hc (Prod.ext (fileB.trans fileC.symm) same)

/-- At most one binding is nearest. -/
theorem Nearest.unique (sites : s.OnePerSite) {b c : Binding} (hb : s.Nearest name file scope position b)
    (hc : s.Nearest name file scope position c) : b = c := by
  cases hb with
  | upTo memB before latest =>
    cases hc with
    | upTo memC before' latest' =>
      exact sites.eq_of_position memB memC (Int.le_antisymm (latest' b memB before) (latest c memC before'))
    | behind memC after _ => exact absurd (after b memB) (Int.not_lt.2 before)
  | behind memB after earliest =>
    cases hc with
    | upTo memC before _ => exact absurd (after c memC) (Int.not_lt.2 before)
    | behind memC _ earliest' =>
      exact sites.eq_of_position memB memC (Int.le_antisymm (earliest c memC) (earliest' b memB))

theorem Nearest.mem (h : s.Nearest name file scope position b) : b ∈ s.ofName name file scope := by
  cases h <;> assumption

theorem Nearest.congr (same : ∀ b, b ∈ s.ofName name file scope ↔ b ∈ t.ofName name file scope)
    (h : s.Nearest name file scope position b) : t.Nearest name file scope position b := by
  cases h with
  | upTo mem before latest => exact .upTo ((same b).1 mem) before fun c hc => latest c ((same c).2 hc)
  | behind mem after earliest =>
    exact .behind ((same b).1 mem) (fun c hc => after c ((same c).2 hc)) fun c hc => earliest c ((same c).2 hc)

/-- A look-up answers just the type of the nearest binding. -/
theorem lookup?_eq_some_iff (sites : s.OnePerSite) {type : String} :
    s.lookup? name file scope position = some type ↔ ∃ b, s.Nearest name file scope position b ∧ b.type = type := by
  refine ⟨exists_nearest, ?_⟩
  rintro ⟨b, nearest, rfl⟩
  cases found : s.lookup? name file scope position with
  | none =>
    rw [lookup?_eq_none_iff] at found
    exact absurd nearest.mem (found ▸ List.not_mem_nil)
  | some type =>
    obtain ⟨c, nearest', rfl⟩ := exists_nearest found
    rw [nearest.unique sites nearest']

/-- Bindings that agree on a name answer the same for it. -/
theorem lookup?_congr (sites : s.OnePerSite) (sites' : t.OnePerSite)
    (same : ∀ b, b ∈ s.ofName name file scope ↔ b ∈ t.ofName name file scope) :
    s.lookup? name file scope position = t.lookup? name file scope position := by
  refine Option.ext fun type => ?_
  rw [lookup?_eq_some_iff sites, lookup?_eq_some_iff sites']
  exact exists_congr fun b => and_congr_left fun _ => ⟨.congr same, .congr fun c => (same c).symm⟩

end Bindings

end PhpRename
