import Mathlib.Logic.Relation
import PhpRename.Class.Hierarchy
import PhpRename.Lexer.Tokenize
import PhpRename.Proofs.Name.Label

/-!
# What a class inherits from

A class inherits from every class that extending and implementing lead up to. The search for an
ancestor goes up level by level and enters no class twice, so cycles end it as well: `reaches_iff` says
that it finds just what is reached, and `reachesIn?_eq` after how many turns. The ancestors of a class
are its successive parents up to the first repetition (`climb_iff`).
-/

set_option autoImplicit false

namespace PhpRename

open Name (short)

/-! ## Names without a namespace -/

/-- The name, its parent and its interfaces have no namespace. -/
structure ClassInfo.Plain (c : ClassInfo) : Prop where
  name : short c.name = c.name
  above : ∀ n ∈ c.above, short n = n

namespace Hierarchy

variable {h : Hierarchy} {target name a b : String} {seen queue chain : List String} {c : ClassInfo}

/-- The hierarchy of some files, taken in one after another. -/
def ofFiles (files : List (Path × Tokens)) : Hierarchy := files.foldl (fun h f => h.recordFile f.1 f.2) {}

/-- No class of the hierarchy has a namespace. -/
def Plain (h : Hierarchy) : Prop := ∀ c ∈ h.classes, c.Plain

theorem plain_headerNames (section? : Option Bool) (header : List (Nat × Token)) :
    (∀ n ∈ (headerNames section? header).1, short n = n) ∧ ∀ n ∈ (headerNames section? header).2, short n = n := by
  fun_induction headerNames section? header with
  | case1 => exact ⟨List.forall_mem_nil _, List.forall_mem_nil _⟩
  | case2 _ _ _ _ _ ih | case3 _ _ _ _ _ ih | case7 _ _ _ _ _ _ _ ih => exact ih
  | case4 _ t _ _ parents interfaces names ih =>
    rw [names] at ih
    exact ⟨List.forall_mem_cons.2 ⟨Name.short_short t.text, ih.1⟩, ih.2⟩
  | case5 _ t _ _ parents interfaces names ih =>
    rw [names] at ih
    exact ⟨ih.1, List.forall_mem_cons.2 ⟨Name.short_short t.text, ih.2⟩⟩
  | case6 _ t _ _ parents interfaces names ih =>
    rw [names] at ih
    exact ih

theorem plain_of_declaration? {path : Path} {ts : Tokens} {i : Nat} {kind : TokenKind}
    (declared : declaration? path ts i kind = some c) : c.Plain := by
  obtain ⟨name, -, declared⟩ := Option.bind_eq_some_iff.1 declared
  obtain ⟨parents, interfaces⟩ :=
    plain_headerNames none (ts.significantWhile (fun k => k != .openBrace && k != .semicolon) (i + 1))
  split at declared <;> obtain rfl := Option.some.inj declared
  · have above := List.forall_mem_append.2 ⟨parents, interfaces⟩
    exact ⟨Name.short_short name, List.forall_mem_append.2 ⟨List.forall_mem_nil _, above⟩⟩
  · refine ⟨Name.short_short name, List.forall_mem_append.2 ⟨fun n mem => ?_, interfaces⟩⟩
    exact parents n (List.mem_of_head? (Option.mem_toList.1 mem))

theorem Plain.insert (plain : h.Plain) (new : c.Plain) : (h.insert c).Plain := by
  rw [Hierarchy.insert]
  split
  · exact plain
  · exact List.forall_mem_append.2 ⟨plain, List.forall_mem_singleton.2 new⟩

theorem Plain.recordFile (plain : h.Plain) (path : Path) (ts : Tokens) : (h.recordFile path ts).Plain := by
  refine List.foldlRecOn (motive := Plain) _ _ plain fun h plain ⟨t, i⟩ _ => ?_
  dsimp only
  split
  · split
    · rename_i declared
      exact plain.insert (plain_of_declaration? declared)
    · exact plain
  · exact plain

theorem plain_ofFiles (files : List (Path × Tokens)) : (ofFiles files).Plain :=
  List.foldlRecOn (motive := Plain) files _ (List.forall_mem_nil _) fun _ plain f _ => plain.recordFile f.1 f.2

theorem mem_of_get? (declared : h.get? name = some c) : c ∈ h.classes := List.mem_of_find?_eq_some declared

theorem get?_short (h : Hierarchy) (name : String) : h.get? (short name) = h.get? name := by
  rw [get?, Name.short_short, get?]

theorem get?_of_short (h : Hierarchy) (whole : short name = name) : h.get? name = h.declared? name := by
  rw [get?, whole]

/-! ## Going up -/

/-- A class extends or implements another one itself. -/
def Above (h : Hierarchy) (a b : String) : Prop := ∃ c, h.get? a = some c ∧ b ∈ c.above

/-- A class is another one, or extends or implements it in some number of steps. -/
def Inherits (h : Hierarchy) : String → String → Prop := Relation.ReflTransGen h.Above

theorem Above.short_eq (up : h.Above a b) (plain : h.Plain) : short b = b := by
  obtain ⟨c, declared, mem⟩ := up
  exact (plain c (mem_of_get? declared)).above b mem

theorem Inherits.short_eq (inherits : h.Inherits a b) (plain : h.Plain) (whole : short a = a) : short b = b := by
  cases inherits with
  | refl => exact whole
  | tail _ up => exact up.short_eq plain

theorem above_of_parent? (parent : h.parent? a = some b) : h.Above a b := by
  obtain ⟨c, declared, parent⟩ := Option.bind_eq_some_iff.1 parent
  exact ⟨c, declared, List.mem_append_left _ (Option.mem_toList.2 parent)⟩

/-- A class inherits from one that is spelled like another, up to letter case. -/
def LeadsTo (h : Hierarchy) (a target : String) : Prop :=
  ∃ c, h.Inherits a c ∧ Ascii.sameIgnoringCase c target = true

theorem LeadsTo.head (up : h.Above a b) (leads : h.LeadsTo b target) : h.LeadsTo a target := by
  obtain ⟨c, inherits, wanted⟩ := leads
  exact ⟨c, .head up inherits, wanted⟩

/-- The first step of a way to a class that is not there yet. -/
theorem LeadsTo.above (leads : h.LeadsTo a target) (other : ¬ Ascii.sameIgnoringCase a target = true) :
    ∃ s, h.Above a s ∧ h.LeadsTo s target := by
  obtain ⟨c, inherits, wanted⟩ := leads
  obtain rfl | ⟨s, up, rest⟩ := inherits.cases_head
  · exact absurd wanted other
  · exact ⟨s, up, c, rest, wanted⟩

/-! ## The search -/

/-- What the search keeps: none of the names that have been seen is wanted, and whatever stands above one of
them has been seen, is queued or leads nowhere. -/
structure Searched (h : Hierarchy) (target : String) (seen queue : List String) : Prop where
  unwanted : ∀ n ∈ seen, ¬ Ascii.sameIgnoringCase n target = true
  closed : ∀ n ∈ seen, ∀ s, h.Above n s → s ∈ seen ∨ s ∈ queue ∨ ¬ h.LeadsTo s target

/-- A way from a name that has been seen leads on from a queued one. -/
theorem Searched.through (searched : h.Searched target seen queue) (start : a ∈ seen) (leads : h.LeadsTo a target) :
    ∃ n ∈ queue, h.LeadsTo n target := by
  obtain ⟨c, inherits, wanted⟩ := leads
  induction inherits using Relation.ReflTransGen.head_induction_on with
  | refl => exact absurd wanted (searched.unwanted c start)
  | head up rest ih =>
    obtain mem | mem | barren := searched.closed _ start _ up
    · exact ih mem
    · exact ⟨_, mem, c, rest, wanted⟩
    · exact absurd ⟨c, rest, wanted⟩ barren

/-- A queued name that has been seen, or that leads nowhere, may be dropped. -/
theorem Searched.drop (searched : h.Searched target seen (name :: queue))
    (done : name ∈ seen ∨ ¬ h.LeadsTo name target) : h.Searched target seen queue where
  unwanted := searched.unwanted
  closed n mem s up := by
    obtain mem | mem | barren := searched.closed n mem s up
    · exact .inl mem
    · obtain rfl | mem := List.mem_cons.1 mem
      · exact done.imp_right .inr
      · exact .inr (.inl mem)
    · exact .inr (.inr barren)

/-- A queued name that is not wanted may be replaced by all that stands above it. -/
theorem Searched.enter (searched : h.Searched target seen (name :: queue))
    (other : ¬ Ascii.sameIgnoringCase name target = true) (declared : h.get? name = some c) :
    h.Searched target (name :: seen) (queue ++ c.above) where
  unwanted := List.forall_mem_cons.2 ⟨other, searched.unwanted⟩
  closed := by
    refine List.forall_mem_cons.2 ⟨fun s up => ?_, fun n mem s up => ?_⟩
    · obtain ⟨d, found, mem⟩ := up
      obtain rfl := Option.some.inj (declared.symm.trans found)
      exact .inr (.inl (List.mem_append_right _ mem))
    · obtain mem | mem | barren := searched.closed n mem s up
      · exact .inl (List.mem_cons_of_mem _ mem)
      · obtain rfl | mem := List.mem_cons.1 mem
        · exact .inl (List.mem_cons_self ..)
        · exact .inr (.inl (List.mem_append_left _ mem))
      · exact .inr (.inr barren)

/-- The search answers whether one of the queued names leads to the wanted class. -/
theorem reaches_iff (plain : h.Plain) (whole : ∀ n ∈ queue, short n = n) (searched : h.Searched target seen queue) :
    h.reaches target seen queue = true ↔ ∃ n ∈ queue, h.LeadsTo n target := by
  fun_induction reaches h target seen queue with
  | case1 seen => exact iff_of_false Bool.false_ne_true fun ⟨n, mem, _⟩ => List.not_mem_nil mem
  | case2 seen name rest same => exact iff_of_true rfl ⟨name, List.mem_cons_self .., name, .refl, same⟩
  | case3 seen name rest other known ih =>
    have known : name ∈ seen := List.contains_iff_mem.1 known
    have searched := searched.drop (.inl known)
    rw [ih (List.forall_mem_cons.1 whole).2 searched, List.exists_mem_cons_iff, or_iff_right_of_imp]
    exact searched.through known
  | case4 seen name rest other new undeclared ih =>
    obtain ⟨here, whole⟩ := List.forall_mem_cons.1 whole
    have barren : ¬ h.LeadsTo name target := by
      intro leads
      obtain ⟨s, ⟨c, declared, -⟩, -⟩ := leads.above other
      rw [get?_of_short h here, undeclared] at declared
      cases declared
    rw [ih whole (searched.drop (.inr barren)), List.exists_mem_cons_iff, or_iff_right_of_imp fun leads => absurd leads barren]
  | case5 seen name rest other new c declared ih =>
    obtain ⟨here, whole⟩ := List.forall_mem_cons.1 whole
    have declared : h.get? name = some c := (get?_of_short h here).trans declared
    have whole : ∀ n ∈ rest ++ c.above, short n = n :=
      List.forall_mem_append.2 ⟨whole, (plain c (mem_of_get? declared)).above⟩
    have goes : h.LeadsTo name target ↔ ∃ n ∈ c.above, h.LeadsTo n target := by
      constructor
      · intro leads
        obtain ⟨s, ⟨d, found, mem⟩, leads⟩ := leads.above other
        obtain rfl := Option.some.inj (declared.symm.trans found)
        exact ⟨s, mem, leads⟩
      · rintro ⟨s, mem, leads⟩
        exact leads.head ⟨c, declared, mem⟩
    rw [ih whole (searched.enter other declared), List.exists_mem_cons_iff, goes, or_comm]
    simp only [List.mem_append, or_and_right, exists_or]

theorem isSubclassOf_iff (plain : h.Plain) (name ancestor : String) :
    h.isSubclassOf name ancestor = true ↔ h.LeadsTo (short name) (short ancestor) := by
  have start : h.Searched (short ancestor) [] [short name] := ⟨List.forall_mem_nil _, List.forall_mem_nil _⟩
  rw [isSubclassOf, reaches_iff plain (List.forall_mem_singleton.2 (Name.short_short name)) start]
  simp only [List.mem_singleton, exists_eq_left]

/-! ## The turns of the search -/

/-- The answer of the search when it ends within a number of turns; each takes one name off the queue. -/
def reachesIn? (h : Hierarchy) (target : String) : Nat → List String → List String → Option Bool
  | 0, _, _ => none
  | _ + 1, _, [] => some false
  | turns + 1, seen, name :: rest =>
    if Ascii.sameIgnoringCase name target then some true
    else if seen.contains name then reachesIn? h target turns seen rest
    else
      match h.declared? name with
      | none => reachesIn? h target turns seen rest
      | some c => reachesIn? h target turns (name :: seen) (rest ++ c.above)

/-- The number of names above a class that has not been seen. -/
def linksFrom (seen : List String) (c : ClassInfo) : Nat := if seen.contains c.name then 0 else c.above.length

/-- The number of names above all declared classes. -/
def links (h : Hierarchy) : Nat := (h.classes.map (·.above.length)).sum

/-- The number of names above the classes that have not been seen. -/
def linksLeft (h : Hierarchy) (seen : List String) : Nat := (h.classes.map (linksFrom seen)).sum

theorem linksFrom_cons_le (name : String) (seen : List String) (c : ClassInfo) :
    linksFrom (name :: seen) c ≤ linksFrom seen c := by
  unfold linksFrom
  split
  · exact Nat.zero_le _
  · rename_i new
    rw [List.contains_cons, Bool.or_eq_true, not_or] at new
    rw [if_neg new.2]

/-- Entering a class uses up its links. -/
theorem linksLeft_enter (declared : h.declared? name = some c) (new : ¬ seen.contains name = true) :
    h.linksLeft (name :: seen) + c.above.length ≤ h.linksLeft seen := by
  have here : c.name = name := by simpa using List.find?_some declared
  obtain ⟨before, after, split⟩ := List.append_of_mem (List.mem_of_find?_eq_some declared)
  have used : linksFrom (name :: seen) c = 0 := if_pos (by rw [here, List.contains_cons, beq_self_eq_true, Bool.true_or])
  have full : linksFrom seen c = c.above.length := if_neg (here ▸ new)
  have fewer (l : List ClassInfo) : (l.map (linksFrom (name :: seen))).sum ≤ (l.map (linksFrom seen)).sum :=
    List.sum_le_sum fun c _ => linksFrom_cons_le name seen c
  have := fewer before
  have := fewer after
  simp only [linksLeft, split, List.map_append, List.map_cons, List.sum_append, List.sum_cons, used, full]
  omega

/-- The search ends after a turn for each queued name, each link from a class that has not been seen, and the
end of the queue. -/
theorem reachesIn?_eq {turns : Nat} (enough : queue.length + h.linksLeft seen ≤ turns) :
    h.reachesIn? target (turns + 1) seen queue = some (h.reaches target seen queue) := by
  fun_induction reaches h target seen queue generalizing turns with
  | case1 seen => rfl
  | case2 seen name rest same => rw [reachesIn?, if_pos same]
  | case3 seen name rest other known ih =>
    rw [List.length_cons] at enough
    obtain ⟨turns, rfl⟩ : ∃ n, turns = n + 1 := ⟨turns - 1, by omega⟩
    rw [reachesIn?, if_neg other, if_pos known]
    exact ih (by omega)
  | case4 seen name rest other new undeclared ih =>
    rw [List.length_cons] at enough
    obtain ⟨turns, rfl⟩ : ∃ n, turns = n + 1 := ⟨turns - 1, by omega⟩
    rw [reachesIn?, if_neg other, if_neg new, undeclared]
    exact ih (by omega)
  | case5 seen name rest other new c declared ih =>
    have fewer := linksLeft_enter declared new
    rw [List.length_cons] at enough
    obtain ⟨turns, rfl⟩ : ∃ n, turns = n + 1 := ⟨turns - 1, by omega⟩
    rw [reachesIn?, if_neg other, if_neg new, declared]
    exact ih (by rw [List.length_append]; omega)

theorem reachesIn?_isSubclassOf (h : Hierarchy) (name ancestor : String) :
    h.reachesIn? (short ancestor) (h.links + 2) [] [short name] = some (h.isSubclassOf name ancestor) := by
  refine reachesIn?_eq ?_
  rw [List.length_singleton, Nat.add_comm]
  exact Nat.le_refl _

theorem isSubclassOf_of_reachesIn? {ancestor : String} {answer : Bool}
    (found : h.reachesIn? (short ancestor) (h.links + 2) [] [short name] = some answer) :
    h.isSubclassOf name ancestor = answer :=
  Option.some.inj ((h.reachesIn?_isSubclassOf name ancestor).symm.trans found)

/-! ## Parents -/

/-- The successive parents of a class: each is the parent of the one before, none of them comes twice or was
there before, and they end where there is no parent or one that was there. -/
structure Climb (h : Hierarchy) (seen : List String) (name : String) (chain : List String) : Prop where
  steps : (name :: chain).IsChain fun a b => h.parent? a = some b
  distinct : chain.Nodup
  fresh : ∀ a ∈ chain, a ∉ seen
  cut : ∀ parent, h.parent? (chain.getLastD name) = some parent → parent ∈ seen ∨ parent ∈ chain

theorem climb_nil_iff : h.Climb seen name [] ↔ ∀ parent, h.parent? name = some parent → parent ∈ seen := by
  constructor
  · intro climb parent up
    exact (climb.cut parent up).resolve_right List.not_mem_nil
  · intro top
    exact ⟨.singleton name, .nil, List.forall_mem_nil _, fun parent up => .inl (top parent up)⟩

theorem climb_cons_iff :
    h.Climb seen name (a :: chain) ↔ h.parent? name = some a ∧ a ∉ seen ∧ h.Climb (a :: seen) a chain := by
  have ends (parent : String) : parent ∈ a :: seen ∨ parent ∈ chain ↔ parent ∈ seen ∨ parent ∈ a :: chain := by
    rw [List.mem_cons, List.mem_cons, or_assoc, or_left_comm]
  constructor
  · rintro ⟨steps, distinct, fresh, cut⟩
    rw [List.getLastD_cons] at cut
    obtain ⟨up, steps⟩ := List.isChain_cons_cons.1 steps
    obtain ⟨once, distinct⟩ := List.nodup_cons.1 distinct
    obtain ⟨new, fresh⟩ := List.forall_mem_cons.1 fresh
    refine ⟨up, new, steps, distinct, fun b mem => ?_, fun parent up => (ends parent).2 (cut parent up)⟩
    exact List.not_mem_cons_of_ne_of_not_mem (fun same => once (same ▸ mem)) (fresh b mem)
  · rintro ⟨up, new, steps, distinct, fresh, cut⟩
    have once : a ∉ chain := fun mem => fresh a mem (List.mem_cons_self ..)
    refine ⟨List.isChain_cons_cons.2 ⟨up, steps⟩, List.nodup_cons.2 ⟨once, distinct⟩, ?_, ?_⟩
    case refine_2 =>
      rw [List.getLastD_cons]
      exact fun parent up => (ends parent).1 (cut parent up)
    exact List.forall_mem_cons.2 ⟨new, fun b mem known => fresh b mem (List.mem_cons_of_mem a known)⟩

theorem parent?_of_short (h : Hierarchy) (whole : short name = name) :
    h.parent? name = (h.declared? name).bind (·.parent) := by
  rw [parent?, get?_of_short h whole]

/-- Without a new parent there is nothing to climb. -/
theorem climb_iff_of_top (top : ∀ parent, h.parent? name = some parent → parent ∈ seen) :
    h.Climb seen name chain ↔ chain = [] := by
  constructor
  · intro climb
    cases chain with
    | nil => rfl
    | cons a chain =>
      obtain ⟨up, new, -⟩ := climb_cons_iff.1 climb
      exact absurd (top a up) new
  · rintro rfl
    exact climb_nil_iff.2 top

/-- The parents that are listed are the successive ones. -/
theorem climb_iff (plain : h.Plain) (whole : short name = name) :
    h.Climb seen name chain ↔ chain = h.parentsFrom seen name := by
  fun_induction parentsFrom h seen name generalizing chain with
  | case1 seen name undeclared =>
    refine climb_iff_of_top fun parent up => ?_
    rw [parent?_of_short h whole, undeclared] at up
    cases up
  | case2 seen name c declared none =>
    refine climb_iff_of_top fun parent up => ?_
    rw [parent?_of_short h whole, declared, Option.bind_some, none] at up
    cases up
  | case3 seen name c declared parent up known =>
    refine climb_iff_of_top fun other up' => ?_
    rw [parent?_of_short h whole, declared, Option.bind_some, up] at up'
    exact Option.some.inj up' ▸ List.contains_iff_mem.1 known
  | case4 seen name c declared parent up new ih =>
    have up : h.parent? name = some parent := by rw [parent?_of_short h whole, declared, Option.bind_some, up]
    have new : parent ∉ seen := fun mem => new (List.contains_iff_mem.2 mem)
    cases chain with
    | nil => exact iff_of_false (fun climb => new (climb_nil_iff.1 climb parent up)) (List.cons_ne_nil _ _).symm
    | cons a chain =>
      have further : h.Climb (parent :: seen) parent chain ↔ chain = h.parentsFrom (parent :: seen) parent :=
        ih ((above_of_parent? up).short_eq plain)
      rw [climb_cons_iff, up, Option.some_inj, List.cons_eq_cons]
      constructor
      · rintro ⟨rfl, -, climb⟩
        exact ⟨rfl, further.1 climb⟩
      · rintro ⟨rfl, same⟩
        exact ⟨rfl, new, further.2 same⟩

/-- A class inherits from its successive parents. -/
theorem Climb.inherits (climb : h.Climb seen name chain) : ∀ a ∈ chain, h.Inherits name a := by
  induction chain generalizing seen name with
  | nil => exact List.forall_mem_nil _
  | cons b chain ih =>
    obtain ⟨up, -, climb⟩ := climb_cons_iff.1 climb
    have first := above_of_parent? up
    exact List.forall_mem_cons.2 ⟨.single first, fun a mem => .head first (ih climb a mem)⟩

/-- **Subclasses and ancestors.** In the hierarchy of any files, cycles included, a class is a subclass of just
those that extending and implementing lead up to, in any letter case at the end of the way; the search for
one ends after at most two turns more than there are links. The ancestors of a class are its successive
parents, without the class itself and without repetition, up to the first repetition, and the class is a
subclass of each. -/
theorem isSubclassOf_iff_inherits (files : List (Path × Tokens)) (name : String) :
    let h := ofFiles files
    (∀ ancestor, h.isSubclassOf name ancestor = true ↔
      ∃ c, h.Inherits (short name) c ∧ Ascii.sameIgnoringCase c (short ancestor) = true) ∧
    (∀ ancestor, h.reachesIn? (short ancestor) (h.links + 2) [] [short name] = some (h.isSubclassOf name ancestor)) ∧
    (∀ chain, h.Climb [short name] (short name) chain ↔ chain = h.ancestors name) ∧
    ∀ a ∈ h.ancestors name, h.isSubclassOf name a = true := by
  intro h
  have plain : h.Plain := plain_ofFiles files
  have climbs (chain : List String) : h.Climb [short name] (short name) chain ↔ chain = h.ancestors name :=
    climb_iff plain (Name.short_short name)
  refine ⟨isSubclassOf_iff plain name, h.reachesIn?_isSubclassOf name, climbs, fun a mem => ?_⟩
  have inherits := ((climbs _).2 rfl).inherits a mem
  have same : short a = a := inherits.short_eq plain (Name.short_short name)
  exact (isSubclassOf_iff plain name a).2 ⟨a, inherits, same.symm ▸ Ascii.sameIgnoringCase_refl a⟩

/-- Three classes that extend each other in a circle, and an interface that extends an undeclared one. -/
def circle : List (Path × Tokens) :=
  [(.ofText "/p/a.php", Lexer.tokenize (Utf8.encode "<?php interface I extends J {} class A extends \\N\\B implements I {}")),
    (.ofText "/p/b.php", Lexer.tokenize (Utf8.encode "<?php class B extends C {} class C extends A {}"))]

theorem ofFiles_circle : ofFiles circle =
    ⟨[⟨"I", .ofText "/p/a.php", 2, none, ["J"]⟩, ⟨"A", .ofText "/p/a.php", 13, some "B", ["I"]⟩,
      ⟨"B", .ofText "/p/b.php", 2, some "C", []⟩, ⟨"C", .ofText "/p/b.php", 13, some "A", []⟩]⟩ := by
  decide +kernel

/-- Each class of the circle has the two others as ancestors; the search goes around once, also for a class that
is not there. -/
theorem isSubclassOf_iff_inherits_circle :
    let h := ofFiles circle
    h.ancestors "\\N\\A" = ["B", "C"] ∧ h.isSubclassOf "\\N\\A" "C" = true ∧ h.isSubclassOf "B" "\\N\\j" = true ∧
      h.isSubclassOf "B" "Z" = false := by
  intro h
  have parents : h.ancestors "\\N\\A" = ["B", "C"] := by
    rw [show h = _ from ofFiles_circle]
    decide +kernel
  have member : "C" ∈ h.ancestors "\\N\\A" := parents ▸ by decide
  have found : h.reachesIn? (short "\\N\\j") (h.links + 2) [] [short "B"] = some true := by
    rw [show h = _ from ofFiles_circle]
    decide +kernel
  have lost : h.reachesIn? (short "Z") (h.links + 2) [] [short "B"] = some false := by
    rw [show h = _ from ofFiles_circle]
    decide +kernel
  have inherited := (isSubclassOf_iff_inherits circle "\\N\\A").2.2.2
  have answers := (isSubclassOf_iff_inherits circle "B").2.1
  exact ⟨parents, inherited "C" member, Option.some.inj ((answers _).symm.trans found),
    Option.some.inj ((answers _).symm.trans lost)⟩

end Hierarchy

end PhpRename
