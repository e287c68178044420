import PhpRename.Proofs.Lexer.Matching
import PhpRename.Proofs.Signature.Listing
import PhpRename.Proofs.Token.Steps

/-!
# Parameters by segments

The commas of a parameter list that stand in no bracket group inside it cut the list into segments, and every
segment with a variable of its own declares one parameter: the first such variable, with the type and the first
modifier in front of it. Nothing of one segment reaches another.

The reading comes to the pieces between commas (`parameters_eq_pieces`). `Tokens.mem_topLevel` says which tokens a walk
over groups as units meets, `pieces_eq` that cutting what it meets is cutting the indices, and `parameters_declare` puts
all three together.
-/

set_option autoImplicit false

namespace PhpRename

/-! ## Tokens outside of groups -/

namespace Tokens

variable {ts : Tokens} {start stop i j k : Nat} {t : Token}

/-- A token between two indices that stands in no linked group which begins between them. -/
structure Stands (ts : Tokens) (start stop k : Nat) (t : Token) : Prop where
  token : ts[k]? = some t
  reached : start ≤ k
  before : k < stop
  free : ∀ p q, ts.Links p q → start ≤ p → ¬ (p ≤ k ∧ k ≤ q)

/-- Groups that began between two indices are over at the second. -/
def Settled (ts : Tokens) (start i : Nat) : Prop := ∀ p q, ts.Links p q → start ≤ p → p < i → q < i

theorem le_of_mem_topLevel (mem : (k, t) ∈ ts.topLevel i stop) : i ≤ k := by
  fun_induction topLevel ts i stop with
  | case1 i inside t opens ih =>
    have := ih mem
    omega
  | case2 i inside t other ih =>
    obtain same | mem := List.mem_cons.1 mem
    · exact Nat.le_of_eq (Prod.mk.inj same).1.symm
    · exact Nat.le_of_succ_le (ih mem)
  | case3 => cases mem

theorem topLevel_ascending (ts : Tokens) (i stop : Nat) : (ts.topLevel i stop).Pairwise fun a b => a.1 < b.1 := by
  fun_induction topLevel ts i stop with
  | case1 i inside t opens ih => exact ih
  | case2 i inside t other ih => exact List.pairwise_cons.2 ⟨fun b mem => le_of_mem_topLevel mem, ih⟩
  | case3 => exact .nil

/-- One step of the walk at an opener: it goes on behind the group, or behind the opener alone. -/
theorem Settled.skip (settled : ts.Settled start i) (nested : ts.WellNested) (token : ts[i]? = some t)
    (opens : t.kind.isOpener = true) : ts.Settled start (max i (t.matching.getD i) + 1) := by
  intro p q linked here less
  obtain before | rfl | behind := Nat.lt_trichotomy p i
  · have := settled p q linked here before
    omega
  · obtain ⟨u, found, partner⟩ := linked
    obtain rfl : u = t := Option.some.inj (found.symm.trans token)
    rw [partner, Option.getD_some]
    omega
  · cases partner : t.matching with
    | none =>
      rw [partner, Option.getD_none] at less
      omega
    | some m =>
      have group : ts.Links i m := ⟨t, token, partner⟩
      have order := nested.lt_of_opener group token opens
      rw [partner, Option.getD_some] at less
      rw [Option.getD_some]
      obtain last | inside := Nat.eq_or_lt_of_le (show p ≤ m by omega)
      · subst last
        obtain ⟨u, found, first⟩ := nested.symm i p group
        obtain ⟨u', found', second⟩ := linked
        obtain rfl : u = u' := Option.some.inj (found.symm.trans found')
        obtain rfl : i = q := Option.some.inj (first.symm.trans second)
        omega
      · -- A group inside of the one that is left out ends before it does.
        by_contra far
        have pq : p < q := by omega
        obtain same | apart := nested.nested i m p q group order linked pq
        · have := (Prod.mk.inj same).1
          omega
        · unfold Nests at apart
          simp only at apart
          omega

/-- One step of the walk at any other token. -/
theorem Settled.succ (settled : ts.Settled start i) (nested : ts.WellNested) (token : ts[i]? = some t)
    (other : t.kind.isOpener = false) : ts.Settled start (i + 1) := by
  intro p q linked here less
  obtain before | rfl := Nat.lt_succ_iff_lt_or_eq.1 less
  · exact Nat.lt_succ_of_lt (settled p q linked here before)
  · exact Nat.lt_succ_of_lt (nested.lt_of_noOpener linked token other)

/-- The tokens that a walk over groups as units meets are those that stand in none, openers apart. -/
theorem mem_topLevel (nested : ts.WellNested) (settled : ts.Settled start i) (low : start ≤ i) :
    (k, t) ∈ ts.topLevel i stop ↔ i ≤ k ∧ ts.Stands start stop k t ∧ t.kind.isOpener = false := by
  fun_induction topLevel ts i stop with
  | case1 i inside u opens ih =>
    have token : ts[i]? = some u := Array.getElem?_eq_getElem inside.1
    rw [ih (settled.skip nested token opens) (by omega)]
    constructor
    · rintro ⟨reached, stands⟩
      exact ⟨by omega, stands⟩
    · rintro ⟨reached, stands, other⟩
      refine ⟨?_, stands, other⟩
      by_contra before
      cases partner : u.matching with
      | none =>
        rw [partner, Option.getD_none] at before
        obtain rfl : i = k := by omega
        obtain rfl : u = t := Option.some.inj (token.symm.trans stands.token)
        rw [opens] at other
        cases other
      | some m =>
        rw [partner, Option.getD_some] at before
        have order := nested.lt_of_opener ⟨u, token, partner⟩ token opens
        exact stands.free i m ⟨u, token, partner⟩ low ⟨reached, by omega⟩
  | case2 i inside u other ih =>
    have token : ts[i]? = some u := Array.getElem?_eq_getElem inside.1
    rw [List.mem_cons, ih (settled.succ nested token (Bool.eq_false_iff.2 other)) (by omega)]
    constructor
    · rintro (same | ⟨reached, stands⟩)
      · obtain ⟨rfl, rfl⟩ := Prod.mk.inj same
        refine ⟨Nat.le_refl _, ⟨token, low, inside.2, ?_⟩, Bool.eq_false_iff.2 other⟩
        rintro p q linked here ⟨le, le'⟩
        obtain before | rfl := Nat.lt_or_eq_of_le le
        · have := settled p q linked here before
          omega
        · have := nested.lt_of_noOpener linked token (Bool.eq_false_iff.2 other)
          omega
      · exact ⟨by omega, stands⟩
    · rintro ⟨reached, stands, kind⟩
      obtain rfl | behind := Nat.eq_or_lt_of_le reached
      · obtain rfl : u = t := Option.some.inj (token.symm.trans stands.token)
        exact .inl rfl
      · exact .inr ⟨behind, stands, kind⟩
  | case3 i past =>
    constructor
    · rintro ⟨⟩
    · rintro ⟨reached, stands, -⟩
      have bound := (Array.getElem?_eq_some_iff.1 stands.token).1
      exact absurd ⟨Nat.lt_of_le_of_lt reached bound, Nat.lt_of_le_of_lt reached stands.before⟩ past

end Tokens

namespace Signature

theorem isOpener_of_spellsType {k : TokenKind} (h : spellsType k = true) : k.isOpener = false := by
  cases k <;> first | rfl | cases h

theorem isOpener_of_promotes {k : TokenKind} (h : promotes k = true) : k.isOpener = false := by
  cases k <;> first | rfl | cases h

/-! ## Segments -/

/-- The neighbouring pairs of ascending indices, from a first one to a last one. -/
def segments (last : Nat) : Nat → List Nat → List (Nat × Nat)
  | first, [] => [(first, last)]
  | first, k :: more => (first, k) :: segments last k more

section

variable {first last : Nat} {ks : List Nat} {s : Nat × Nat}

theorem exists_segments (last first : Nat) (ks : List Nat) : ∃ stop more, segments last first ks = (first, stop) :: more := by
  cases ks with
  | nil => exact ⟨last, [], rfl⟩
  | cons k ks => exact ⟨k, _, rfl⟩

theorem le_of_mem_segments (ascending : (first :: ks).Pairwise (· < ·)) (mem : s ∈ segments last first ks) :
    first ≤ s.1 := by
  induction ks generalizing first with
  | nil =>
    obtain rfl := List.mem_singleton.1 mem
    exact Nat.le_refl first
  | cons k ks ih =>
    obtain ⟨above, ascending⟩ := List.pairwise_cons.1 ascending
    obtain rfl | mem := List.mem_cons.1 mem
    · exact Nat.le_refl first
    · have := above k (List.mem_cons_self ..)
      have := ih ascending mem
      omega

/-- No segment starts before the one in front of it ends. -/
theorem segments_ascending (ascending : (first :: ks).Pairwise (· < ·)) :
    (segments last first ks).Pairwise fun a b => a.2 ≤ b.1 := by
  induction ks generalizing first with
  | nil => exact List.pairwise_singleton ..
  | cons k ks ih =>
    have ascending := (List.pairwise_cons.1 ascending).2
    exact List.pairwise_cons.2 ⟨fun s mem => le_of_mem_segments ascending mem, ih ascending⟩

/-- Segments are the pairs with no index between them. -/
theorem mem_segments (ascending : (first :: ks).Pairwise (· < ·)) (below : ∀ k ∈ first :: ks, k < last) :
    s ∈ segments last first ks ↔
      s.1 < s.2 ∧ s.1 ∈ first :: ks ∧ (s.2 ∈ ks ∨ s.2 = last) ∧ ∀ k ∈ ks, ¬ (s.1 < k ∧ k < s.2) := by
  induction ks generalizing first with
  | nil =>
    have order := below first (List.mem_cons_self ..)
    rw [segments, List.mem_singleton, Prod.ext_iff, List.mem_singleton]
    constructor
    · rintro ⟨rfl, rfl⟩
      exact ⟨order, rfl, .inr rfl, nofun⟩
    · rintro ⟨-, starts, ends, -⟩
      exact ⟨starts, ends.resolve_left (List.not_mem_nil)⟩
  | cons k ks ih =>
    obtain ⟨above, ascending⟩ := List.pairwise_cons.1 ascending
    have later := (List.pairwise_cons.1 ascending).1
    have next := above k (List.mem_cons_self ..)
    have bound := below k (by simp)
    rw [segments, List.mem_cons, ih ascending fun j mem => below j (List.mem_cons_of_mem first mem)]
    constructor
    · rintro (rfl | ⟨less, starts, ends, whole⟩)
      · refine ⟨next, List.mem_cons_self .., .inl (List.mem_cons_self ..), fun j mem => ?_⟩
        have : k ≤ j := by
          obtain rfl | mem := List.mem_cons.1 mem
          · exact Nat.le_refl j
          · exact Nat.le_of_lt (later j mem)
        simp only
        omega
      · refine ⟨less, List.mem_cons_of_mem first starts, ends.imp_left (List.mem_cons_of_mem k),
          List.forall_mem_cons.2 ⟨?_, whole⟩⟩
        obtain same | mem := List.mem_cons.1 starts
        · omega
        · have := later _ mem
          omega
    · rintro ⟨less, starts, ends, whole⟩
      obtain ⟨here, whole⟩ := List.forall_mem_cons.1 whole
      obtain same | starts := List.mem_cons.1 starts
      · -- The first segment ends at the next index.
        refine .inl (Prod.ext same ?_)
        obtain mem | ends := ends
        · obtain ends | mem := List.mem_cons.1 mem
          · exact ends
          · have := later _ mem
            omega
        · omega
      · refine .inr ⟨less, starts, ?_, whole⟩
        obtain mem | ends := ends
        · obtain ends | mem := List.mem_cons.1 mem
          · obtain same | mem := List.mem_cons.1 starts
            · omega
            · have := later _ mem
              omega
          · exact .inl mem
        · exact .inr ends

end

/-! ## Pieces between commas -/

/-- The indices of the commas of a token list. -/
def commas (tokens : List (Nat × Token)) : List Nat := (tokens.filter (·.2.kind == .comma)).map (·.1)

/-- The tokens of a list between two indices. -/
def within (tokens : List (Nat × Token)) (s : Nat × Nat) : List (Nat × Token) :=
  tokens.filter fun t => s.1 < t.1 && t.1 < s.2

section

variable {first last : Nat} {tokens : List (Nat × Token)} {s : Nat × Nat} {t : Nat × Token}

theorem mem_commas {k : Nat} : k ∈ commas tokens ↔ ∃ t ∈ tokens, t.2.kind = .comma ∧ t.1 = k := by
  simp only [commas, List.mem_map, List.mem_filter, beq_iff_eq, and_assoc]

theorem mem_within : t ∈ within tokens s ↔ t ∈ tokens ∧ s.1 < t.1 ∧ t.1 < s.2 := by
  rw [within, List.mem_filter, Bool.and_eq_true, decide_eq_true_eq, decide_eq_true_eq]

/-- A segment that starts at a token or behind it leaves it out. -/
theorem within_cons_of_le (le : t.1 ≤ s.1) : within (t :: tokens) s = within tokens s := by
  rw [within, within, List.filter_cons_of_neg]
  simp only [Bool.and_eq_true, decide_eq_true_eq]
  omega

theorem within_cons_of_between (behind : s.1 < t.1) (before : t.1 < s.2) :
    within (t :: tokens) s = t :: within tokens s := by
  rw [within, within, List.filter_cons_of_pos]
  simp only [Bool.and_eq_true, decide_eq_true_eq]
  exact ⟨behind, before⟩

/-- Nothing stands in front of the first token. -/
theorem within_cons_to_head (later : ∀ u ∈ tokens, t.1 < u.1) : within (t :: tokens) (first, t.1) = [] := by
  refine List.eq_nil_iff_forall_not_mem.2 fun u mem => ?_
  obtain ⟨mem, -, before⟩ := mem_within.1 mem
  simp only at before
  obtain rfl | mem := List.mem_cons.1 mem
  · omega
  · have := later u mem
    omega

theorem commas_below (inside : ∀ t ∈ tokens, first < t.1 ∧ t.1 < last) (order : first < last) :
    ∀ k ∈ first :: commas tokens, k < last := by
  refine List.forall_mem_cons.2 ⟨order, fun k mem => ?_⟩
  obtain ⟨u, listed, -, rfl⟩ := mem_commas.1 mem
  exact (inside u listed).2

variable (ascending : tokens.Pairwise fun a b => a.1 < b.1) (inside : ∀ t ∈ tokens, first < t.1 ∧ t.1 < last)
include ascending inside

theorem commas_ascending : (first :: commas tokens).Pairwise (· < ·) := by
  refine List.pairwise_cons.2 ⟨fun k mem => ?_, List.pairwise_map.2 (ascending.filter _)⟩
  obtain ⟨u, listed, -, rfl⟩ := mem_commas.1 mem
  exact (inside u listed).1

/-- A token in front of all others is in the first segment, and in no other one. -/
theorem map_within_cons (order : first < last) (behind : first < t.1) (before : t.1 < last)
    (later : ∀ u ∈ tokens, t.1 < u.1) : ∃ stop more, segments last first (commas tokens) = (first, stop) :: more ∧
      (segments last first (commas tokens)).map (within (t :: tokens)) =
        (t :: within tokens (first, stop)) :: more.map (within tokens) := by
  have sorted := commas_ascending ascending inside
  obtain ⟨stop, more, head⟩ := exists_segments last first (commas tokens)
  have stops : t.1 < stop := by
    have mem : (first, stop) ∈ segments last first (commas tokens) := by
      rw [head]
      exact List.mem_cons_self ..
    obtain ⟨-, -, ends | rfl, -⟩ := (mem_segments sorted (commas_below inside order)).1 mem
    · obtain ⟨u, mem, -, same⟩ := mem_commas.1 ends
      have := later u mem
      simp only at same
      omega
    · exact before
  have others : ∀ s ∈ more, stop ≤ s.1 := by
    have apart : (segments last first (commas tokens)).Pairwise fun a b => a.2 ≤ b.1 := segments_ascending sorted
    rw [head] at apart
    exact (List.pairwise_cons.1 apart).1
  refine ⟨stop, more, head, ?_⟩
  rw [head, List.map_cons, within_cons_of_between behind stops]
  congr 1
  refine List.map_congr_left fun s mem => within_cons_of_le ?_
  have := others s mem
  omega

/-- The pieces between commas are the segments. -/
theorem pieces_eq (order : first < last) :
    pieces tokens = (segments last first (commas tokens)).map (within tokens) := by
  induction tokens generalizing first with
  | nil => rfl
  | cons t tokens ih =>
    obtain ⟨later, ascending⟩ := List.pairwise_cons.1 ascending
    obtain ⟨above, below⟩ := inside t (List.mem_cons_self ..)
    have inside := fun u mem => inside u (List.mem_cons_of_mem t mem)
    rw [pieces]
    by_cases comma : (t.2.kind == .comma) = true
    · have bounds := fun u mem => (⟨later u mem, (inside u mem).2⟩ : t.1 < u.1 ∧ u.1 < last)
      have commas_eq : commas (t :: tokens) = t.1 :: commas tokens := by simp [commas, beq_iff_eq.1 comma]
      rw [if_pos comma, ih ascending bounds below, commas_eq, segments, List.map_cons, within_cons_to_head later]
      congr 1
      refine List.map_congr_left fun s mem => (within_cons_of_le ?_).symm
      exact le_of_mem_segments (commas_ascending ascending bounds) mem
    · have commas_eq : commas (t :: tokens) = commas tokens := by simp [commas, comma]
      obtain ⟨stop, more, head, mapped⟩ := map_within_cons ascending inside order above below later
      rw [if_neg comma, ih ascending inside order, commas_eq, mapped, head, List.map_cons]

end

/-! ## What a segment declares -/

/-- A segment of a parameter list: what lies between two neighbouring commas of the list, or its ends. -/
structure Segment (ts : Tokens) (opening closing first last : Nat) : Prop where
  order : first < last
  starts : first = opening ∨ ∃ t, ts.Stands (opening + 1) closing first t ∧ t.kind = .comma
  ends : last = closing ∨ ∃ t, ts.Stands (opening + 1) closing last t ∧ t.kind = .comma
  whole : ∀ k t, ts.Stands (opening + 1) closing k t → t.kind = .comma → ¬ (first < k ∧ k < last)

/-- A token of a parameter list between two indices, in no group of the list. -/
structure Has (ts : Tokens) (opening closing first last k : Nat) (t : Token) : Prop where
  stands : ts.Stands (opening + 1) closing k t
  behind : first < k
  before : k < last

/-- The parameter that a segment declares. -/
structure Declares (ts : Tokens) (opening closing first last : Nat) (p : Parameter) : Prop where
  present : ∃ t, Has ts opening closing first last p.variableIndex t ∧ t.kind = .variableName
  /-- Its variable is the first one of the segment. -/
  earliest : ∀ k t, Has ts opening closing first last k t → t.kind = .variableName → p.variableIndex ≤ k
  /-- Its type is what the tokens of a type in front of the variable spell, in order. -/
  declared : ∃ spelling : List (Nat × Token), spelling.Pairwise (fun a b => a.1 < b.1) ∧
    (∀ k t, (k, t) ∈ spelling ↔ Has ts opening closing first p.variableIndex k t ∧ spellsType t.kind = true) ∧
    p.declared = String.join (spelling.map fun t => t.2.text)
  /-- Its modifier is the first one in front of the variable. -/
  promoted : ∀ m, p.promoted = some m ↔
    (∃ t, Has ts opening closing first p.variableIndex m t ∧ promotes t.kind = true) ∧
      ∀ k t, Has ts opening closing first p.variableIndex k t → promotes t.kind = true → m ≤ k

/-- The first token of an ascending list that satisfies a test. -/
theorem find?_eq_some_iff_of_ascending {tokens : List (Nat × Token)} {test : Nat × Token → Bool} {m : Nat}
    (ascending : tokens.Pairwise fun a b => a.1 < b.1) :
    (tokens.find? test).map (·.1) = some m ↔
      (∃ t, (m, t) ∈ tokens ∧ test (m, t) = true) ∧ ∀ k t, (k, t) ∈ tokens → test (k, t) = true → m ≤ k := by
  rw [Option.map_eq_some_iff]
  constructor
  · rintro ⟨⟨_, t⟩, found, rfl⟩
    obtain ⟨holds, before, after, rfl, others⟩ := List.find?_eq_some_iff_append.1 found
    refine ⟨⟨t, by simp, holds⟩, fun k u mem here => ?_⟩
    rcases List.mem_append.1 mem with mem | mem
    · have other := others _ mem
      rw [here] at other
      cases other
    · obtain same | mem := List.mem_cons.1 mem
      · exact Nat.le_of_eq (Prod.mk.inj same).1.symm
      · exact Nat.le_of_lt ((List.pairwise_cons.1 (List.pairwise_append.1 ascending).2.1).1 _ mem)
  · rintro ⟨⟨t, mem, holds⟩, least⟩
    cases found : tokens.find? test with
    | none => exact absurd holds (List.find?_eq_none.1 found _ mem)
    | some u =>
      obtain ⟨holds', before, after, split, others⟩ := List.find?_eq_some_iff_append.1 found
      refine ⟨u, rfl, Nat.le_antisymm ?_ (least u.1 u.2 (List.mem_of_find?_eq_some found) holds')⟩
      rw [split] at mem ascending
      rcases List.mem_append.1 mem with mem | mem
      · have other := others _ mem
        rw [holds] at other
        cases other
      · obtain rfl | mem := List.mem_cons.1 mem
        · exact Nat.le_refl _
        · exact Nat.le_of_lt ((List.pairwise_cons.1 (List.pairwise_append.1 ascending).2.1).1 _ mem)

/-- In front of a token of an ascending list stand the tokens of smaller indices. -/
theorem mem_front_iff {before after : List (Nat × Token)} {x t : Nat × Token}
    (ascending : (before ++ x :: after).Pairwise fun a b => a.1 < b.1) :
    t ∈ before ↔ t ∈ before ++ x :: after ∧ t.1 < x.1 := by
  obtain ⟨-, back, apart⟩ := List.pairwise_append.1 ascending
  constructor
  · intro mem
    exact ⟨List.mem_append_left _ mem, apart t mem x (List.mem_cons_self ..)⟩
  · rintro ⟨mem, less⟩
    refine (List.mem_append.1 mem).resolve_right fun mem => ?_
    obtain rfl | mem := List.mem_cons.1 mem
    · exact Nat.lt_irrefl t.1 less
    · exact Nat.lt_asymm less ((List.pairwise_cons.1 back).1 t mem)

/-- An ascending list is known by its members. -/
theorem eq_of_ascending {tokens tokens' : List (Nat × Token)} (ascending : tokens.Pairwise fun a b => a.1 < b.1)
    (ascending' : tokens'.Pairwise fun a b => a.1 < b.1) (same : ∀ t, t ∈ tokens ↔ t ∈ tokens') : tokens = tokens' := by
  have distinct : ∀ {l : List (Nat × Token)}, (l.Pairwise fun a b => a.1 < b.1) → l.Nodup := by
    refine fun sorted => sorted.imp ?_
    rintro a _ less rfl
    exact Nat.lt_irrefl a.1 less
  exact ((List.perm_ext_iff_of_nodup (distinct ascending) (distinct ascending')).2 same).eq_of_pairwise
    (fun a b _ _ less less' => absurd less (Nat.lt_asymm less')) ascending ascending'

section

variable {ts : Tokens} {opening closing first last : Nat} {p q : Parameter} {piece : List (Nat × Token)}

/-- A segment declares one parameter at most. -/
theorem Declares.unique (hp : Declares ts opening closing first last p) (hq : Declares ts opening closing first last q) :
    p = q := by
  obtain ⟨t, has, kind⟩ := hp.present
  obtain ⟨u, has', kind'⟩ := hq.present
  have same : p.variableIndex = q.variableIndex :=
    Nat.le_antisymm (hp.earliest _ u has' kind') (hq.earliest _ t has kind)
  obtain ⟨spelling, ascending, mem, text⟩ := hp.declared
  obtain ⟨spelling', ascending', mem', text'⟩ := hq.declared
  have spelt : spelling = spelling' := by
    refine eq_of_ascending ascending ascending' ?_
    rintro ⟨k, t⟩
    rw [mem, mem', same]
  have modifier : p.promoted = q.promoted := by
    refine Option.ext fun m => ?_
    rw [hp.promoted, hq.promoted, same]
  cases p
  cases q
  simp only at same text text' modifier
  rw [text, text', spelt, same, modifier]

/-- What the tokens of a segment declare. -/
theorem declares_of_parameter? (ascending : piece.Pairwise fun a b => a.1 < b.1)
    (tokens : ∀ k t, (k, t) ∈ piece ↔ Has ts opening closing first last k t ∧ t.kind.isOpener = false)
    (h : parameter? piece = some p) : Declares ts opening closing first last p := by
  obtain ⟨v, found, rfl⟩ := Option.map_eq_some_iff.1 h
  have least := (find?_eq_some_iff_of_ascending (m := v) ascending).1 found
  obtain ⟨before, t, after, rfl, kind, others⟩ := exists_of_variableOf? found
  have taken : front (before ++ (v, t) :: after) = before := front_append_variable others kind
  have ahead := (List.pairwise_append.1 ascending).1
  have here := ((tokens v t).1 (by simp)).1
  have mem_before : ∀ k u, u.kind.isOpener = false → ((k, u) ∈ before ↔ Has ts opening closing first v k u) := by
    intro k u other
    rw [mem_front_iff ascending, tokens]
    constructor
    · rintro ⟨⟨has, -⟩, less⟩
      exact ⟨has.stands, has.behind, less⟩
    · intro has
      exact ⟨⟨⟨has.stands, has.behind, Nat.lt_trans has.before here.before⟩, other⟩, has.before⟩
  constructor
  case present => exact ⟨t, here, kind⟩
  case earliest =>
    intro k u has named
    exact least.2 k u ((tokens k u).2 ⟨has, by rw [named]; rfl⟩) (beq_iff_eq.2 named)
  case declared =>
    refine ⟨_, ahead.filter fun t => spellsType t.2.kind, fun k u => ?_, by rw [taken, typeOf]⟩
    rw [List.mem_filter]
    refine and_congr_left fun spells => mem_before k u ?_
    exact isOpener_of_spellsType spells
  case promoted =>
    intro m
    rw [taken, modifierOf?, find?_eq_some_iff_of_ascending ahead]
    have modifiers : ∀ k u, promotes u.kind = true → ((k, u) ∈ before ↔ Has ts opening closing first v k u) :=
      fun k u promotes => mem_before k u (isOpener_of_promotes promotes)
    constructor
    · rintro ⟨⟨u, mem, promotes⟩, smallest⟩
      exact ⟨⟨u, (modifiers m u promotes).1 mem, promotes⟩, fun k w has also =>
        smallest k w ((modifiers k w also).2 has) also⟩
    · rintro ⟨⟨u, has, promotes⟩, smallest⟩
      exact ⟨⟨u, (modifiers m u promotes).2 has, promotes⟩, fun k w mem also =>
        smallest k w ((modifiers k w also).1 mem) also⟩

/-- A segment with a variable declares a parameter. -/
theorem parameter?_isSome {v : Nat} {t : Token} (mem : (v, t) ∈ piece) (kind : t.kind = .variableName) :
    ∃ p, parameter? piece = some p := by
  cases found : variableOf? piece with
  | none => exact absurd kind (variableOf?_eq_none_iff.1 found _ mem)
  | some v => exact ⟨_, by rw [parameter?, found, Option.map_some]⟩

end

/-! ## The parameters between two parentheses -/

section

variable {ts : Tokens} {opening closing : Nat}

theorem mem_between (nested : ts.WellNested) {k : Nat} {t : Token} :
    (k, t) ∈ ts.topLevel (opening + 1) closing ↔ ts.Stands (opening + 1) closing k t ∧ t.kind.isOpener = false := by
  have settled : ts.Settled (opening + 1) (opening + 1) := fun p q _ here less => absurd less (Nat.not_lt.2 here)
  rw [Tokens.mem_topLevel nested settled (Nat.le_refl _)]
  exact ⟨And.right, fun h => ⟨h.1.reached, h⟩⟩

theorem mem_within_between (nested : ts.WellNested) {s : Nat × Nat} (k : Nat) (t : Token) :
    (k, t) ∈ within (ts.topLevel (opening + 1) closing) s ↔
      Has ts opening closing s.1 s.2 k t ∧ t.kind.isOpener = false := by
  rw [mem_within, mem_between nested]
  exact ⟨fun ⟨⟨stands, other⟩, behind, before⟩ => ⟨⟨stands, behind, before⟩, other⟩,
    fun ⟨has, other⟩ => ⟨⟨has.stands, other⟩, has.behind, has.before⟩⟩

theorem mem_commas_between (nested : ts.WellNested) {k : Nat} :
    k ∈ commas (ts.topLevel (opening + 1) closing) ↔ ∃ t, ts.Stands (opening + 1) closing k t ∧ t.kind = .comma := by
  rw [mem_commas]
  constructor
  · rintro ⟨⟨k, t⟩, mem, comma, rfl⟩
    exact ⟨t, ((mem_between nested).1 mem).1, comma⟩
  · rintro ⟨t, stands, comma⟩
    exact ⟨(k, t), (mem_between nested).2 ⟨stands, by rw [comma]; rfl⟩, comma, rfl⟩

theorem between_inside (nested : ts.WellNested) :
    ∀ t ∈ ts.topLevel (opening + 1) closing, opening < t.1 ∧ t.1 < closing := by
  rintro ⟨k, t⟩ mem
  have stands := ((mem_between nested).1 mem).1
  exact ⟨stands.reached, stands.before⟩

/-- The segments are cut at the commas that a walk over groups as units meets. -/
theorem segment_iff (nested : ts.WellNested) (order : opening < closing) {first last : Nat} :
    Segment ts opening closing first last ↔
      (first, last) ∈ segments closing opening (commas (ts.topLevel (opening + 1) closing)) := by
  have ascending := commas_ascending (ts.topLevel_ascending (opening + 1) closing) (between_inside nested)
  have below := commas_below (between_inside nested) order
  rw [mem_segments ascending below, List.mem_cons, mem_commas_between nested, mem_commas_between nested]
  constructor
  · rintro ⟨less, starts, ends, whole⟩
    refine ⟨less, starts, ends.symm, fun k mem => ?_⟩
    obtain ⟨t, stands, comma⟩ := (mem_commas_between nested).1 mem
    exact whole k t stands comma
  · rintro ⟨less, starts, ends, whole⟩
    exact ⟨less, starts, ends.symm, fun k t stands comma => whole k ((mem_commas_between nested).2 ⟨t, stands, comma⟩)⟩

theorem parameters_eq (nested : ts.WellNested) (order : opening < closing) :
    parameters ts opening closing = (segments closing opening (commas (ts.topLevel (opening + 1) closing))).filterMap
      fun s => parameter? (within (ts.topLevel (opening + 1) closing) s) := by
  rw [parameters_eq_pieces, pieces_eq (ts.topLevel_ascending _ _) (between_inside nested) order, List.filterMap_map]
  rfl

theorem declares_of_within (nested : ts.WellNested) {s : Nat × Nat} {p : Parameter}
    (h : parameter? (within (ts.topLevel (opening + 1) closing) s) = some p) :
    Declares ts opening closing s.1 s.2 p :=
  declares_of_parameter? ((ts.topLevel_ascending _ _).filter _) (mem_within_between nested) h

theorem mem_parameters_iff (nested : ts.WellNested) (order : opening < closing) {p : Parameter} :
    p ∈ parameters ts opening closing ↔
      ∃ first last, Segment ts opening closing first last ∧ Declares ts opening closing first last p := by
  rw [parameters_eq nested order, List.mem_filterMap]
  constructor
  · rintro ⟨⟨first, last⟩, mem, h⟩
    exact ⟨first, last, (segment_iff nested order).2 mem, declares_of_within nested h⟩
  · rintro ⟨first, last, segment, declares⟩
    obtain ⟨t, has, kind⟩ := declares.present
    obtain ⟨q, h⟩ := parameter?_isSome ((mem_within_between nested (s := (first, last)) _ t).2 ⟨has, by rw [kind]; rfl⟩) kind
    have same := declares.unique (declares_of_within nested h)
    exact ⟨(first, last), (segment_iff nested order).1 segment, same ▸ h⟩

theorem parameters_ascending (nested : ts.WellNested) (order : opening < closing) :
    (parameters ts opening closing).Pairwise fun p q => p.variableIndex < q.variableIndex := by
  have ascending := commas_ascending (ts.topLevel_ascending (opening + 1) closing) (between_inside nested)
  rw [parameters_eq nested order, List.pairwise_filterMap]
  refine (segments_ascending ascending).imp fun {s s'} apart p h q h' => ?_
  obtain ⟨t, has, -⟩ := (declares_of_within nested h).present
  obtain ⟨t', has', -⟩ := (declares_of_within nested h').present
  have := has.before
  have := has'.behind
  omega

end

theorem bounds?_eq_some {ts : Tokens} {i opening closing : Nat} (h : bounds? ts i = some (opening, closing)) :
    ts.kindAt? opening = some .openParen ∧ ts.Links opening closing := by
  obtain ⟨j, -, h⟩ := Option.bind_eq_some_iff.1 h
  obtain ⟨k, found, h⟩ := Option.bind_eq_some_iff.1 h
  obtain ⟨l, linked, h⟩ := Option.bind_eq_some_iff.1 h
  obtain ⟨rfl, rfl⟩ := Prod.mk.inj (Option.some.inj h)
  constructor
  · have paren := (Tokens.findFrom?_spec _ _ _ _ _ found).2.2
    rw [Tokens.kindSatisfies, Option.any_eq_true] at paren
    obtain ⟨kind, here, same⟩ := paren
    rw [here, beq_iff_eq.1 same]
  · exact (Tokens.matching?_eq_some_iff.1 linked).1

/-- **Parameters by segments.** The parameters of a function are those that the segments of its list declare, in
order: each segment with a variable of its own declares one. -/
theorem parameters_declare {source : Bytes} {i opening closing : Nat}
    (bounds : bounds? (Lexer.tokenize source) i = some (opening, closing)) :
    ((parameters (Lexer.tokenize source) opening closing).Pairwise fun p q => p.variableIndex < q.variableIndex) ∧
      (∀ p, p ∈ parameters (Lexer.tokenize source) opening closing ↔ ∃ first last,
        Segment (Lexer.tokenize source) opening closing first last ∧
          Declares (Lexer.tokenize source) opening closing first last p) ∧
      ∀ first last, Segment (Lexer.tokenize source) opening closing first last →
        (∃ k t, Has (Lexer.tokenize source) opening closing first last k t ∧ t.kind = .variableName) →
          ∃! p, Declares (Lexer.tokenize source) opening closing first last p := by
  have nested := (Lexer.sweep_brackets source).wellNested (fun _ _ => Lexer.links_tokenize) (Lexer.kindAt?_tokenize source)
  have order : opening < closing := by
    obtain ⟨kind, linked⟩ := bounds?_eq_some bounds
    obtain ⟨t, token, paren⟩ := Option.map_eq_some_iff.1 kind
    exact nested.lt_of_opener linked token (by rw [paren]; rfl)
  refine ⟨parameters_ascending nested order, fun p => mem_parameters_iff nested order, fun first last segment => ?_⟩
  rintro ⟨k, t, has, kind⟩
  have mem := (mem_within_between nested (s := (first, last)) k t).2 ⟨has, by rw [kind]; rfl⟩
  obtain ⟨p, h⟩ := parameter?_isSome mem kind
  exact ⟨p, declares_of_within nested h, fun q declares => declares.unique (declares_of_within nested h)⟩

/-- Attributes, defaults and modifiers stay with their own segment, and a last comma declares nothing. The third
parameter is a property, too. -/
theorem parameters_declare_promoted :
    let ts := Lexer.tokenize (Utf8.encode
      "<?php function f(#[A(1)] ?Foo $a, $b = [1, 2], private readonly Bar|Baz &$c, ...$d,) {}")
    bounds? ts 2 = some (5, 46) ∧
      ((parameters ts 5 46).Pairwise fun p q => p.variableIndex < q.variableIndex) ∧
      ∃ first last, Segment ts 5 46 first last ∧ Declares ts 5 46 first last ⟨40, "Bar|Baz", some 31⟩ :=
  have bounds : bounds? (Lexer.tokenize (Utf8.encode
      "<?php function f(#[A(1)] ?Foo $a, $b = [1, 2], private readonly Bar|Baz &$c, ...$d,) {}")) 2 =
      some (5, 46) := by decide +kernel
  have listed : (⟨40, "Bar|Baz", some 31⟩ : Parameter) ∈ parameters (Lexer.tokenize (Utf8.encode
      "<?php function f(#[A(1)] ?Foo $a, $b = [1, 2], private readonly Bar|Baz &$c, ...$d,) {}")) 5 46 := by
    decide +kernel
  have declare := parameters_declare bounds
  ⟨bounds, declare.1, (declare.2.1 _).1 listed⟩

end Signature

end PhpRename
