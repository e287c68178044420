import PhpRename.Proofs.Refactoring.Proposals
import PhpRename.Proofs.Tracking.Assignment
import PhpRename.Proofs.Tracking.Sites
import PhpRename.Proofs.TypeExpr.Text

/-!
# The types of receivers

One pass over a straight-line program binds each assigned variable at its site, and later passes
change nothing. `typeAt?_receiver`: after any number of passes the receiver of a call has the class
of the last assignment to it before the call, or else of the first one behind.
-/

set_option autoImplicit false

namespace PhpRename

/-! ## Bindings of a program -/

namespace Statement

/-- The class that a statement assigns to a variable. -/
def assigned? (name : String) : Statement → Option String
  | assign target cls => if target = name then some cls else none
  | call _ _ => none

/-- The binding that a statement makes whose tokens start at an index. -/
def binding? (file : String) (k : Nat) : Statement → Option Binding
  | assign target cls => some ⟨file, globalScope, "$" ++ target, cls, (k + 1 : Nat)⟩
  | call _ _ => none

end Statement

namespace Program

/-- The bindings that statements make whose tokens start at an index, in order. -/
def bindings (file : String) (k : Nat) : Program → List Binding
  | [] => []
  | s :: program => (s.binding? file k).toList ++ bindings file (k + s.written.length) program

variable {file : String} {k : Nat} {program : Program}

theorem bindings_append (xs ys : Program) :
    bindings file k (xs ++ ys) = bindings file k xs ++ bindings file (k + xs.body.length) ys := by
  induction xs generalizing k with
  | nil => rfl
  | cons s xs ih =>
    rw [List.cons_append, bindings, bindings, ih, List.append_assoc, body_cons, List.length_append,
      Nat.add_assoc]

theorem mem_bindings_cons {s : Statement} {b : Binding} : b ∈ bindings file k (s :: program) ↔
    s.binding? file k = some b ∨ b ∈ bindings file (k + s.written.length) program := by
  rw [bindings, List.mem_append, Option.mem_toList]

/-- What a statement binds is global, at its second token. -/
theorem site_of_binding? {s : Statement} {b : Binding} (h : s.binding? file k = some b) :
    (b.file = file ∧ b.scope = globalScope) ∧ b.position = (k + 1 : Nat) ∧ 1 < s.written.length := by
  cases s with
  | call => cases h
  | assign target cls =>
    obtain rfl := Option.some.inj h
    exact ⟨⟨rfl, rfl⟩, rfl, by simp [Statement.written]⟩

theorem home_of_mem_bindings {b : Binding} (mem : b ∈ bindings file k program) :
    b.file = file ∧ b.scope = globalScope := by
  induction program generalizing k with
  | nil => cases mem
  | cons s program ih =>
    obtain here | mem := mem_bindings_cons.1 mem
    · exact (site_of_binding? here).1
    · exact ih mem

/-- The sites of what a program binds are among its tokens. -/
theorem site_of_mem_bindings {b : Binding} (mem : b ∈ bindings file k program) :
    (k : Int) < b.position ∧ b.position < (k + (body program).length : Nat) := by
  induction program generalizing k with
  | nil => cases mem
  | cons s program ih =>
    rw [body_cons, List.length_append]
    obtain here | mem := mem_bindings_cons.1 mem
    · have := (site_of_binding? here).2
      omega
    · have := ih mem
      omega

theorem bindings_ascending (file : String) (k : Nat) (program : Program) :
    (bindings file k program).Pairwise fun b c => b.position < c.position := by
  induction program generalizing k with
  | nil => exact .nil
  | cons s program ih =>
    rw [bindings, List.pairwise_append]
    refine ⟨?_, ih _, fun b hb c hc => ?_⟩
    · cases s.binding? file k <;> simp
    · have here := (site_of_binding? (Option.mem_toList.1 hb)).2
      have := (site_of_mem_bindings hc).1
      omega

theorem plain_of_mem_bindings (accepted : ∀ s ∈ program, s.Accepted) {b : Binding}
    (mem : b ∈ bindings file k program) : '-' ∉ b.name.toList := by
  induction program generalizing k with
  | nil => cases mem
  | cons s program ih =>
    obtain here | mem := mem_bindings_cons.1 mem
    · cases s with
      | call => cases here
      | assign target cls =>
        have label := Name.labelFault?_eq_none_iff.1 (fault?_of_accept (accepted _ (List.mem_cons_self ..)).1)
        obtain rfl := Option.some.inj here
        rw [String.toList_append, List.mem_append, not_or]
        exact ⟨by decide, label.notMem (by decide)⟩
    · exact ih (fun t ht => accepted t (List.mem_cons_of_mem s ht)) mem

/-- The types that a program binds to a variable, in order, are the classes that it assigns. -/
theorem types_of_bindings (name file : String) (k : Nat) (program : Program) :
    ((bindings file k program).filter (·.name == "$" ++ name)).map (·.type) =
      program.filterMap (·.assigned? name) := by
  induction program generalizing k with
  | nil => rfl
  | cons s program ih =>
    rw [bindings, List.filter_append, List.map_append, ih]
    cases s with
    | call => rfl
    | assign target cls =>
      have names : ("$" ++ target == "$" ++ name) = decide (target = name) := by
        rw [Bool.eq_iff_iff, beq_iff_eq, decide_eq_true_iff, String.append_right_inj]
      rw [Statement.binding?, Option.toList_some, List.filter_cons, names, List.filterMap_cons, Statement.assigned?]
      by_cases same : target = name
      · rw [if_pos (decide_eq_true same), if_pos same]
        rfl
      · rw [if_neg (by simpa using same), if_neg same]
        rfl

end Program

/-! ## Types that are classes -/

namespace TypeExpr

/-- A label that is a type is a class. -/
theorem specificityOf_label {name : String} (label : Name.IsLabel name) : specificityOf name = some 0 := by
  obtain ⟨c, rest, chars, -, -⟩ := id label
  have ne (d : Char) (no : Name.inLabel d = false) : c ≠ d := by
    rintro rfl
    exact label.notMem no (by rw [chars]; exact List.mem_cons_self ..)
  have noDash : '-' ∉ c :: rest := chars ▸ label.notMem (by decide)
  have single : ¬ separator.toList <:+: c :: rest := fun within => noDash (within.subset (by decide))
  have noCall : ¬(c == callMark) = true := by simpa using ne callMark (by decide)
  rw [specificityOf, parse?, chars, parseChars?, if_neg noCall, links_of_single single]
  simp [ne '$' (by decide), specificity]

end TypeExpr

/-- At the top level of a file that includes none, a variable has the type that is bound to it. -/
theorem Resolver.typeAt?_of_lookup? {r : Resolver} (flat : r.tokens.Flat) (alone : r.includes.of r.path = []) {i : Nat}
    {t : Token} {name : String} {answer : Option String} (ht : r.tokens[i]? = some t) (text : t.text = "$" ++ name)
    (found : r.bindings.lookup? ("$" ++ name) r.file globalScope i = answer)
    (label : ∀ cls, answer = some cls → Name.IsLabel cls) : r.typeAt? i = answer := by
  have isVariable : TypeExpr.isVariable (TypeExpr.unmarked ("$" ++ name)) = true := by
    simp [TypeExpr.isVariable, TypeExpr.unmarked, TypeExpr.callMark]
  have direct : r.lookup? i ("$" ++ name) = answer := by
    have inherited : r.lookupInherited? ("$" ++ name) = none := by
      rw [lookupInherited?, isVariable, Bool.true_or, if_pos rfl]
    rw [lookup?]
    simp only [scopeOf_of_flat flat, found, alone, inherited, bne_self_eq_false, Bool.false_eq_true, if_false,
      List.findSome?_nil, Option.or_none]
  rw [typeAt?, ht, Option.bind_some, text, typeOf?, typeWithin,
    typeWith_of_normalizeRoot (normalizeRoot_of_flat flat ..), direct]
  cases answer with
  | none => rfl
  | some cls => rw [Option.map_some, TypeExpr.specificityOf_label (label cls rfl), beq_self_eq_true, if_pos rfl]

/-! ## One statement -/

namespace Statement

variable {s : Statement} {r : Resolver} {k : Nat}

/-- A statement whose site is new binds there. -/
theorem teach_of_fresh (accepted : s.Accepted) (flat : r.tokens.Flat)
    (fresh : ∀ b ∈ r.bindings.entries, b.position ≠ (k + 1 : Nat))
    (plain : ∀ b ∈ r.bindings.entries, '-' ∉ b.name.toList) :
    s.teach r k =
      { r with bindings := { r.bindings with entries := (s.binding? r.file k).toList ++ r.bindings.entries } } := by
  cases s with
  | call => rfl
  | assign target cls =>
    have targetLabel := Name.labelFault?_eq_none_iff.1 (fault?_of_accept accepted.1)
    have classLabel := Name.isLabel_of_classFault? (fault?_of_accept accepted.2)
    have other : ("$" ++ target == cls) = false := by
      refine beq_false_of_ne fun same => classLabel.notMem (c := '$') (by decide) ?_
      rw [← same, String.toList_append]
      exact List.mem_append_left _ (by decide)
    have free : r.keeps (k + 1) cls = false := by
      have none : r.bindings.entries.find? (·.isAt r.file (k + 1 : Nat)) = none :=
        List.find?_eq_none.2 fun b mem => by
          rw [Binding.isAt, beq_false_of_ne (fresh b mem), Bool.false_and]
          exact Bool.false_ne_true
      rw [Resolver.keeps, Bindings.typeAt?, none]
      rfl
    have name : '-' ∉ ("$" ++ target).toList := by
      rw [String.toList_append, List.mem_append, not_or]
      exact ⟨by decide, targetLabel.notMem (by decide)⟩
    rw [teach, Resolver.bindName_of_flat flat, other, free, Bool.or_self, if_neg Bool.false_ne_true,
      Bindings.record_of_fresh fresh]
    · rfl
    · intro b mem
      obtain rfl | mem := List.mem_cons.1 mem
      · exact name
      · exact plain b mem

/-- A statement that finds its binding at its site leaves it. -/
theorem teach_of_known (flat : r.tokens.Flat)
    (known : ∀ b, s.binding? r.file k = some b → r.bindings.typeAt? b.file b.position = some b.type) :
    s.teach r k = r := by
  cases s with
  | call => rfl
  | assign target cls =>
    have keeps : r.keeps (k + 1) cls = true := by
      rw [Resolver.keeps, known _ rfl]
      exact TypeExpr.atLeastAsSpecific_refl _
    rw [teach, Resolver.bindName_of_flat flat, keeps, Bool.or_true, if_pos rfl]

end Statement

/-! ## One pass -/

namespace Program

variable {r : Resolver} {k : Nat} {program : Program}

theorem starts_next {s : Statement} {ts : Tokens} (reads : ts.ReadsAt k s.written) :
    ts.Starts (k + s.written.length) := by
  cases s with
  | assign => exact .of_semicolon (reads.kindAt? (i := 10) rfl)
  | call => exact .of_semicolon (reads.kindAt? (i := 6) rfl)

/-- The first statement teaches, then the rest does. -/
theorem foldl_token_cons {s : Statement} (accepted : s.Accepted) (flat : r.tokens.Flat)
    (reads : r.tokens.ReadsAt k (s.written ++ program.body)) (starts : r.tokens.Starts k) :
    (List.range' k (body (s :: program)).length).foldl Tracking.token r =
      (List.range' (k + s.written.length) program.body.length).foldl Tracking.token (s.teach r k) := by
  rw [body_cons, List.length_append, ← List.range'_append_1, List.foldl_append,
    Statement.foldl_token accepted flat reads.left starts]

/-- The statements of a program whose sites are new bind there, one in front of the other. -/
theorem foldl_token_of_fresh (accepted : ∀ s ∈ program, s.Accepted) (flat : r.tokens.Flat)
    (reads : r.tokens.ReadsAt k program.body) (starts : r.tokens.Starts k)
    (old : ∀ b ∈ r.bindings.entries, b.position ≤ k)
    (plain : ∀ b ∈ r.bindings.entries, '-' ∉ b.name.toList) :
    (List.range' k program.body.length).foldl Tracking.token r =
      { r with bindings :=
          { r.bindings with entries := (program.bindings r.file k).reverse ++ r.bindings.entries } } := by
  induction program generalizing r k with
  | nil => rfl
  | cons s program ih =>
    rw [body_cons] at reads
    have acceptedHead := accepted s (List.mem_cons_self ..)
    have fresh : ∀ b ∈ r.bindings.entries, b.position ≠ (k + 1 : Nat) := fun b mem => by
      have := old b mem
      omega
    have head := foldl_token_cons acceptedHead flat reads starts
    have learned := Statement.teach_of_fresh acceptedHead flat fresh plain
    let r' : Resolver :=
      { r with bindings := { r.bindings with entries := (s.binding? r.file k).toList ++ r.bindings.entries } }
    have added : ∀ b ∈ r'.bindings.entries, s.binding? r.file k = some b ∨ b ∈ r.bindings.entries :=
      fun b mem => (List.mem_append.1 mem).imp_left Option.mem_toList.1
    have rest := ih (r := r') (fun t ht => accepted t (List.mem_cons_of_mem s ht)) flat reads.right
      (starts_next reads.left)
      (fun b mem => by
        obtain new | mem := added b mem
        · have := (site_of_binding? new).2
          omega
        · have := old b mem
          omega)
      (fun b mem => by
        obtain new | mem := added b mem
        · exact plain_of_mem_bindings accepted (mem_bindings_cons.2 (.inl new))
        · exact plain b mem)
    have one : (s.binding? r.file k).toList.reverse = (s.binding? r.file k).toList := by
      cases s.binding? r.file k <;> rfl
    rw [head, learned, bindings, List.reverse_append, one, List.append_assoc]
    exact rest

/-- The statements of a program that find their bindings leave them. -/
theorem foldl_token_of_known (accepted : ∀ s ∈ program, s.Accepted) (flat : r.tokens.Flat)
    (reads : r.tokens.ReadsAt k program.body) (starts : r.tokens.Starts k)
    (known : ∀ b ∈ program.bindings r.file k, r.bindings.typeAt? b.file b.position = some b.type) :
    (List.range' k program.body.length).foldl Tracking.token r = r := by
  induction program generalizing k with
  | nil => rfl
  | cons s program ih =>
    rw [body_cons] at reads
    have head := foldl_token_cons (accepted s (List.mem_cons_self ..)) flat reads starts
    have kept : s.teach r k = r := Statement.teach_of_known flat fun b hb => known b (mem_bindings_cons.2 (.inl hb))
    rw [head, kept]
    exact ih (fun t ht => accepted t (List.mem_cons_of_mem s ht)) reads.right (starts_next reads.left)
      fun b hb => known b (mem_bindings_cons.2 (.inr hb))

/-- A pass over the tokens of a program is one over its statements. -/
theorem foldl_token_tokens (accepted : ∀ s ∈ program, s.Accepted) {ended : Bool}
    (same : r.tokens = program.tokens ended) :
    (List.range r.tokens.size).foldl Tracking.token r =
      (List.range' 1 program.body.length).foldl Tracking.token r := by
  have reads : r.tokens.ReadsAt 0 ([(.openTag, "<?php")] ++ program.body ++ ending ended) := by
    rw [same]
    exact readsAt accepted ended
  have size : r.tokens.size = 1 + program.body.length + (ending ended).length := by
    rw [same, size_tokens accepted, written, List.length_append, List.length_cons, Nat.add_comm 1]
  have range : List.range r.tokens.size =
      List.range' 0 1 ++ List.range' 1 program.body.length ++
        List.range' (1 + program.body.length) (ending ended).length := by
    rw [size, List.range_eq_range', ← List.range'_append_1, ← List.range'_append_1, Nat.zero_add, Nat.zero_add]
  have front : (List.range' 0 1).foldl Tracking.token r = r :=
    Tracking.foldl_token_of_silent reads.left.left (by simp [kinds])
  have last (r' : Resolver) (learns : r.Learns r') :
      (List.range' (1 + program.body.length) (ending ended).length).foldl Tracking.token r' = r' := by
    have behind := reads.right
    rw [Nat.zero_add, List.length_append, List.length_singleton, ← learns.tokens] at behind
    exact Tracking.foldl_token_of_silent behind (by cases ended <;> simp [ending, kinds])
  rw [range, List.foldl_append, List.foldl_append, front, last _ (.foldl Tracking.token_learns _ r)]

end Program

/-! ## All passes -/

namespace Program

variable {program : Program}

/-- The only file of a run, with the source of a program. -/
def workspace (program : Program) (path : Path) (ended : Bool) : Workspace :=
  .ofSources [(path, Utf8.encode (program.source ended))]

/-- The file of a program. -/
def file (program : Program) (path : Path) (ended : Bool) : SourceFile :=
  .ofBytes path (Utf8.encode (program.source ended))

/-- What is known after the first pass. -/
def learned (program : Program) (path : Path) : Bindings := { entries := (program.bindings path.text 1).reverse }

theorem track_eq (accepted : ∀ s ∈ program, s.Accepted) (path : Path) (ended : Bool) (known : Bindings) :
    (program.workspace path ended).track known =
      ((List.range' 1 program.body.length).foldl Tracking.token
        ((program.workspace path ended).resolver (program.file path ended) known)).bindings := by
  have files : (program.workspace path ended).files = [program.file path ended] := Workspace.files_ofSources _
  let r := (program.workspace path ended).resolver (program.file path ended) known
  rw [Workspace.track, files, List.foldl_cons, List.foldl_nil, Workspace.trackFile]
  exact congrArg Resolver.bindings (foldl_token_tokens (r := r) accepted rfl)

theorem readsAt_body (accepted : ∀ s ∈ program, s.Accepted) (ended : Bool) :
    (program.tokens ended).ReadsAt 1 program.body ∧ (program.tokens ended).Starts 1 := by
  have whole : (program.tokens ended).ReadsAt 0 ([(.openTag, "<?php")] ++ (program.body ++ ending ended)) :=
    readsAt accepted ended
  refine ⟨?_, .of_openTag (whole.kindAt? (i := 0) rfl)⟩
  have behind := whole.right
  rw [Nat.zero_add] at behind
  exact behind.left

theorem track_start (accepted : ∀ s ∈ program, s.Accepted) (path : Path) (ended : Bool) :
    (program.workspace path ended).track {} = program.learned path := by
  obtain ⟨reads, starts⟩ := readsAt_body accepted ended
  rw [track_eq accepted, foldl_token_of_fresh accepted (flat accepted ended) reads starts]
  · exact congrArg (Bindings.mk · []) (List.append_nil _)
  · exact fun b mem => absurd mem List.not_mem_nil
  · exact fun b mem => absurd mem List.not_mem_nil

theorem track_learned (accepted : ∀ s ∈ program, s.Accepted) (path : Path) (ended : Bool) :
    (program.workspace path ended).track (program.learned path) = program.learned path := by
  obtain ⟨reads, starts⟩ := readsAt_body accepted ended
  have sites := List.pairwise_reverse.2 (bindings_ascending path.text 1 program)
  rw [track_eq accepted, foldl_token_of_known accepted (flat accepted ended) reads starts]
  · rfl
  · exact fun b mem => Bindings.typeAt?_of_mem sites (List.mem_reverse.2 mem)

/-- The first pass learns all, and later ones add nothing. -/
theorem trackPasses_eq (accepted : ∀ s ∈ program, s.Accepted) (path : Path) (ended : Bool) {n : Nat}
    (pos : 1 ≤ n) : (program.workspace path ended).trackPasses n {} = program.learned path := by
  have settled : ∀ m, (program.workspace path ended).trackPasses m (program.learned path) = program.learned path := by
    intro m
    induction m with
    | zero => rfl
    | succ m ih => rw [Workspace.trackPasses, track_learned accepted, ih]
  obtain ⟨m, rfl⟩ := Nat.exists_eq_add_of_le' pos
  rw [Workspace.trackPasses, track_start accepted, settled]

/-! ## Look-up -/

/-- A program includes no file. -/
theorem includes_of (accepted : ∀ s ∈ program, s.Accepted) (path : Path) (ended : Bool) :
    (program.workspace path ended).includes.of path = [] := by
  have noTarget (dir : Path) (i : Nat) : Includes.target? dir (program.tokens ended) i = none := by
    have noInclude : (program.tokens ended).kindSatisfies (·.isInclude) i = false := by
      cases found : (program.tokens ended).kindAt? i with
      | none => rw [Tokens.kindSatisfies, found, Option.any_none]
      | some kind =>
        have plain : ∀ k ∈ kinds, k.isInclude = false := by decide
        rw [Tokens.kindSatisfies_eq found, plain kind (kind_mem accepted found)]
    rw [Includes.target?, IncludeArgument.at?, noInclude, if_neg Bool.false_ne_true]
    rfl
  have noTargets : Includes.targets path (program.tokens ended) = [] := by
    rw [Includes.targets, List.filterMap_eq_nil_iff.2 fun i _ => noTarget _ i]
    rfl
  have recorded : (program.workspace path ended).includes =
      ⟨[(path, Includes.targets path (program.tokens ended))]⟩ := rfl
  have same : path.same path = true := beq_self_eq_true _
  rw [recorded, Includes.of, noTargets]
  simp [same]

/-- The class that a variable has between some statements and the rest: the last one assigned to it
before, or else the first one assigned behind. -/
def classAt? (name : String) (before after : Program) : Option String :=
  (before.filterMap (·.assigned? name)).getLast?.or (after.filterMap (·.assigned? name)).head?

theorem lookup?_learned (before after : Program) (receiver method : String) (path : Path) :
    (learned (before ++ .call receiver method :: after) path).lookup? ("$" ++ receiver) path.text globalScope
      (before.offset + 1 : Nat) = classAt? receiver before after := by
  let xs := bindings path.text 1 before
  let ys := bindings path.text (1 + before.body.length) (.call receiver method :: after)
  have split : bindings path.text 1 (before ++ .call receiver method :: after) = xs ++ ys := bindings_append ..
  have order := bindings_ascending path.text 1 (before ++ .call receiver method :: after)
  have home : ∀ b ∈ xs ++ ys, b.file = path.text ∧ b.scope = globalScope := fun b mem =>
    home_of_mem_bindings (split ▸ mem)
  rw [split] at order
  rw [Bindings.lookup?_of_split (congrArg List.reverse split) order home]
  · rw [Option.map_or, ← List.getLast?_map, ← List.head?_map, types_of_bindings, types_of_bindings]
    rfl
  · intro b mem
    have := (site_of_mem_bindings mem).2
    rw [offset]
    omega
  · intro b mem
    obtain here | mem := mem_bindings_cons.1 mem
    · cases here
    · have less := (site_of_mem_bindings mem).1
      have length : (Statement.call receiver method).written.length = 7 := rfl
      rw [offset]
      omega

/-- The class of a variable is a label. -/
theorem isLabel_of_classAt? {before after : Program} {name cls : String}
    (accepted : ∀ s ∈ before ++ after, s.Accepted) (found : classAt? name before after = some cls) : Name.IsLabel cls := by
  have assigned {program : Program} (accepted : ∀ s ∈ program, s.Accepted)
      (mem : cls ∈ program.filterMap (·.assigned? name)) : Name.IsLabel cls := by
    obtain ⟨s, hs, assigns⟩ := List.mem_filterMap.1 mem
    cases s with
    | call => cases assigns
    | assign target other =>
      rw [Statement.assigned?] at assigns
      split at assigns
      · obtain rfl := Option.some.inj assigns
        exact Name.isLabel_of_classFault? (fault?_of_accept (accepted _ hs).2)
      · cases assigns
  rw [classAt?, Option.or_eq_some_iff] at found
  rcases found with last | ⟨-, first⟩
  · exact assigned (fun s hs => accepted s (List.mem_append_left _ hs)) (List.mem_of_getLast? last)
  · exact assigned (fun s hs => accepted s (List.mem_append_right _ hs)) (List.mem_of_head? first)

/-- **The type of a receiver.** In a program of assignments and calls, and after any number of
passes, the receiver of each call has the class of the last assignment to the same variable before
the call, or else of the first one behind it; it has none when the variable is never assigned. -/
theorem typeAt?_receiver (before after : Program) (receiver method : String) (path : Path) (ended : Bool) (n : Nat)
    (accepted : ∀ s ∈ before ++ .call receiver method :: after, s.Accepted) (passes : 1 ≤ n) :
    let program := before ++ .call receiver method :: after
    let workspace := program.workspace path ended
    let file := program.file path ended
    ∃ i t, file.tokens[i]? = some t ∧ t.kind = .variableName ∧ t.text = "$" ++ receiver ∧
      t.position = ⟨before.length + 2, 1⟩ ∧
      (workspace.resolver file (workspace.trackPasses n {})).typeAt? i = classAt? receiver before after := by
  intro program workspace file
  obtain ⟨t, ht, kind, text, position⟩ := exists_receiver accepted ended
  refine ⟨before.offset + 1, t, ht, kind, text, position, ?_⟩
  rw [trackPasses_eq accepted path ended passes]
  let r := workspace.resolver file (program.learned path)
  have top : r.tokens.Flat := flat accepted ended
  have alone : r.includes.of r.path = [] := includes_of accepted path ended
  have found : r.bindings.lookup? ("$" ++ receiver) r.file globalScope (before.offset + 1 : Nat) =
      classAt? receiver before after := lookup?_learned before after receiver method path
  have here : r.tokens[before.offset + 1]? = some t := ht
  have others : ∀ s ∈ before ++ after, s.Accepted := fun s mem => by
    rcases List.mem_append.1 mem with mem | mem
    · exact accepted s (List.mem_append_left _ mem)
    · exact accepted s (List.mem_append_right _ (List.mem_cons_of_mem _ mem))
  exact Resolver.typeAt?_of_lookup? (r := r) top alone here text found fun _ => isLabel_of_classAt? others

theorem typeAt?_receiver_reassigned :
    let before : Program := [.assign "a" "First", .assign "b" "Other", .assign "a" "Foo"]
    let after : Program := [.assign "a" "Late", .call "b" "stop"]
    let program := before ++ .call "a" "run" :: after
    (∀ s ∈ program, s.Accepted) ∧ 1 ≤ 2 ∧
      ∃ i t, (program.file (.ofText "/t/run.php") true).tokens[i]? = some t ∧ t.kind = .variableName ∧
        t.text = "$a" ∧ t.position = ⟨5, 1⟩ ∧
        ((program.workspace (.ofText "/t/run.php") true).resolver (program.file (.ofText "/t/run.php") true)
          ((program.workspace (.ofText "/t/run.php") true).trackPasses 2 {})).typeAt? i = some "Foo" := by
  intro before after program
  have accepted : ∀ s ∈ program, s.Accepted := by decide
  exact ⟨accepted, by decide, typeAt?_receiver before after "a" "run" _ true 2 accepted (by decide)⟩

end Program

end PhpRename
