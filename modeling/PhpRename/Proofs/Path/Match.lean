import PhpRename.Proofs.Path.Normal

/-!
# Include texts that are matched

An include text may name a file from the directory of the including file, or from a directory above
the file. The second match compares the names that the text leaves once it is normalized, so a `..`
in front of them is lost. `matchInclude?_names` tells exactly when the text names the file from the
directory that is reported: a text that goes up above its start does so only from the root.
-/

set_option autoImplicit false

namespace PhpRename.Path

open Ascii (byte)

/-! ## Going up above the start -/

/-- The number of `..` that find no name before them, when `depth` names stand in front. -/
def climb (depth : Nat) : List Component → Nat
  | [] => 0
  | .normal _ :: rest => climb (depth + 1) rest
  | .parent :: rest => if depth = 0 then climb 0 rest + 1 else climb (depth - 1) rest
  | _ :: rest => climb depth rest

/-- How far a relative path goes up above the directory that it starts from. -/
def rise (p : Path) : Nat := climb 0 p.inner

theorem root_notMem_inner (p : Path) : Component.root ∉ p.inner := by
  intro mem
  obtain ⟨seg, -, cut⟩ := List.mem_filterMap.1 mem
  obtain ⟨⟨⟩, -⟩ | ⟨⟨⟩⟩ := ofSegment?_cases cut

/-- Below other names, components do what they do alone, and those that go up above their start
take names of the others along. -/
theorem foldl_fold_append (base names : List Bytes) {components : List Component}
    (noRoot : .root ∉ components) :
    components.foldl fold (names ++ base) =
      components.foldl fold names ++ base.drop (climb names.length components) := by
  induction components generalizing base names with
  | nil => rfl
  | cons c components ih =>
    have noRoot' : .root ∉ components := fun mem => noRoot (List.mem_cons_of_mem c mem)
    rw [List.foldl_cons, List.foldl_cons]
    cases c with
    | root => exact absurd (List.mem_cons_self ..) noRoot
    | current => exact ih base names noRoot'
    | normal name => exact ih base (name :: names) noRoot'
    | parent =>
      cases names with
      | nil =>
        have shorter := ih base.tail [] noRoot'
        rw [List.drop_tail] at shorter
        exact shorter
      | cons name names => exact ih base names noRoot'

/-- The names of a relative path below a directory: those of the directory, as far as the path does
not go up, and its own. -/
theorem normalNames_push_eq {p : Path} (base : Path) (h : p.isAbsolute = false) :
    (base.push p).normalNames = base.normalNames.take (base.normalNames.length - p.rise) ++ p.normalNames := by
  have split := foldl_fold_append base.normalNames.reverse [] p.root_notMem_inner
  rw [List.nil_append, List.length_nil] at split
  rw [normalNames_push h, split, List.reverse_append, ← normalNames_eq, List.drop_reverse, List.reverse_reverse, rise]

/-! ## Dropping the last components -/

theorem isSome_of_mem_steps {p : Path} {seg : Bytes} (h : seg ∈ p.steps) : (ofSegment? seg).isSome = true := by
  have loud := (List.mem_filter.1 h).2
  rw [isSilent, Bool.not_eq_true', Option.isNone_eq_false_iff] at loud
  exact loud

theorem filterMap_take {segs : List Bytes} (h : ∀ seg ∈ segs, (ofSegment? seg).isSome = true) (n : Nat) :
    (segs.take n).filterMap ofSegment? = (segs.filterMap ofSegment?).take n := by
  induction segs generalizing n with
  | nil => simp
  | cons seg segs ih =>
    cases n with
    | zero => rfl
    | succ n =>
      obtain ⟨c, hc⟩ := Option.isSome_iff_exists.1 (h seg (List.mem_cons_self ..))
      rw [List.take_succ_cons, List.filterMap_cons_some hc, List.filterMap_cons_some hc, List.take_succ_cons,
        ih fun other ho => h other (List.mem_cons_of_mem seg ho)]

theorem length_inner (p : Path) : p.inner.length = p.steps.length := by
  have all : ∀ seg ∈ p.steps, (ofSegment? seg).isSome = true := fun seg => isSome_of_mem_steps
  exact List.filterMap_length_eq_length.2 all

/-- A path with its last components dropped starts where it did and has its first segments. -/
theorem steps_popN {p : Path} {n : Nat} (h : n ≤ p.steps.length) :
    (popN n p).steps = p.steps.take (p.steps.length - n) ∧ (popN n p).isAbsolute = p.isAbsolute := by
  induction n generalizing p with
  | zero => exact ⟨by rw [Nat.sub_zero, List.take_length]; rfl, rfl⟩
  | succ n ih =>
    have nonempty : p.steps ≠ [] := by
      intro nil
      rw [nil] at h
      cases h
    obtain ⟨q, above⟩ := parent?_isSome nonempty
    obtain ⟨counts, start⟩ := steps_parent above
    have length : q.steps.length = p.steps.length - 1 := by rw [counts, List.length_dropLast]
    have pops : popN (n + 1) p = popN n q := by rw [popN, pop, above, Option.getD_some]
    obtain ⟨taken, start'⟩ := ih (p := q) (by omega)
    rw [pops, taken, start', start, counts, List.length_dropLast, List.dropLast_eq_take, List.take_take]
    refine ⟨?_, rfl⟩
    congr 1
    omega

theorem IsNormal.inner {p : Path} (h : p.IsNormal) : p.inner = p.normalNames.map .normal := by
  have components := h.components
  rw [components_of_absolute h.1] at components
  exact (List.cons.inj components).2

/-- An absolute path whose components are names is normal. -/
theorem isNormal_of_inner {p : Path} {names : List Bytes} (start : p.isAbsolute = true)
    (inner : p.inner = names.map .normal) : p.IsNormal ∧ p.normalNames = names := by
  have same : p.normalNames = names := by
    rw [normalNames_eq, inner, foldl_normal, List.append_nil, List.reverse_reverse]
  refine ⟨⟨start, ?_⟩, same⟩
  rw [Path.same, beq_iff_eq, normalize_eq start, components_ofNames fun name => isName_of_mem_normalNames, same,
    components_of_absolute start, inner]

/-- The directory that is left when names are dropped from the end of a normal path. -/
theorem IsNormal.popN {p : Path} (h : p.IsNormal) {above below : List Bytes} (names : p.normalNames = above ++ below) :
    (popN below.length p).IsNormal ∧ (popN below.length p).normalNames = above := by
  have length : p.steps.length = above.length + below.length := by
    rw [← length_inner, h.inner, List.length_map, names, List.length_append]
  obtain ⟨counts, start⟩ := steps_popN (p := p) (n := below.length) (by omega)
  refine isNormal_of_inner (start.trans h.1) ?_
  have all : ∀ seg ∈ p.steps, (ofSegment? seg).isSome = true := fun seg => isSome_of_mem_steps
  calc (Path.popN below.length p).inner
      = (p.steps.take (p.steps.length - below.length)).filterMap ofSegment? := by rw [Path.inner, counts]
    _ = p.inner.take above.length := by rw [filterMap_take all, length, Nat.add_sub_cancel]; rfl
    _ = above.map .normal := by rw [h.inner, names, List.map_append, List.take_left' (List.length_map _)]

/-! ## Matching the end of a path -/

theorem segments_join_names {names : List Bytes} (nonempty : names ≠ []) (h : ∀ name ∈ names, IsName name) :
    segments (Text.join (byte '/') names) = names :=
  Text.splitOn_join nonempty (noSlash_names h)

/-- Names joined without a leading slash are components as they stand. -/
theorem components_ofNames_relative {names : List Bytes} (nonempty : names ≠ []) (h : ∀ name ∈ names, IsName name) :
    (ofNames false names).components = names.map .normal := by
  have relative : (ofNames false names).isAbsolute = false := isAbsolute_ofNames h
  have pieces : segments (ofNames false names).bytes = names := segments_join_names nonempty h
  have first : ¬ (names.head? == some dot) = true := by
    intro first
    have mem := List.mem_of_head? (eq_of_beq first)
    exact absurd (loud_names h _ mem) (by decide)
  rw [components, if_neg (by simp [relative]), pieces, if_neg first, filterMap_names h]

/-- A normal path ends with the names of a relative one exactly when its names do. -/
theorem IsNormal.endsWith_iff {p : Path} (h : p.IsNormal) {names : List Bytes} (nonempty : names ≠ [])
    (isName : ∀ name ∈ names, IsName name) :
    p.endsWith (ofNames false names) = true ↔ ∃ above, p.normalNames = above ++ names := by
  rw [endsWith, List.isSuffixOf_iff_suffix, components_ofNames_relative nonempty isName, h.components]
  constructor
  · rintro ⟨before, split⟩
    cases before with
    | nil =>
      have mem : Component.root ∈ names.map .normal := by
        rw [List.nil_append] at split
        rw [split]
        exact List.mem_cons_self ..
      obtain ⟨name, -, same⟩ := List.mem_map.1 mem
      cases same
    | cons c before =>
      obtain ⟨above, below, eq, -, same⟩ := List.map_eq_append_iff.1 (List.cons.inj split).2.symm
      exact ⟨above, by rw [eq, (List.map_inj_right fun _ _ => Component.normal.inj).1 same]⟩
  · rintro ⟨above, eq⟩
    exact ⟨.root :: above.map .normal, by rw [eq, List.map_append]; rfl⟩

theorem IsNormal.same_normalize_iff {p q : Path} (hp : p.IsNormal) (hq : q.isAbsolute = true) :
    q.normalize.same p = true ↔ q.normalNames = p.normalNames := by
  refine ⟨fun eq => ?_, hp.same_of_normalNames hq⟩
  rw [same, beq_iff_eq, normalize_eq hq, components_ofNames fun name => isName_of_mem_normalNames, hp.components] at eq
  exact (List.map_inj_right fun _ _ => Component.normal.inj).1 (List.cons.inj eq).2

variable {expected dir base : Path} {literal : String}

/-- The ways in which a relative text is matched. -/
theorem matchInclude?_relative_cases (isExpected : expected.IsNormal)
    (matched : matchInclude? expected literal dir = some (.relative base)) :
    isAbsolute (ofText literal) = false ∧
      (((absolute (ofText literal) dir).same expected = true ∧ base = dir) ∨
        (absolute (ofText literal) dir).same expected = false ∧ base.IsNormal ∧
          expected.normalNames = base.normalNames ++ normalNames (ofText literal)) := by
  rw [matchInclude?] at matched
  split at matched
  · cases matched
  split at matched
  · split at matched <;> cases matched
  rename_i relative
  have relative : isAbsolute (ofText literal) = false := by simpa using relative
  refine ⟨relative, ?_⟩
  split at matched
  · rename_i names
    cases matched
    exact .inl ⟨names, rfl⟩
  rename_i other
  have tail : normalize (ofText literal) = ofNames false (normalNames (ofText literal)) := by rw [normalize, relative]
  have isName : ∀ name ∈ normalNames (ofText literal), IsName name := fun name => isName_of_mem_normalNames
  simp only [tail] at matched
  split at matched
  · cases matched
  rename_i ends
  simp only [Bool.or_eq_true, Bool.not_eq_true', not_or, Bool.not_eq_false] at ends
  have nonempty : normalNames (ofText literal) ≠ [] := by
    intro nil
    rw [nil] at ends
    exact ends.1 rfl
  obtain ⟨above, split⟩ := (isExpected.endsWith_iff nonempty isName).1 ends.2
  rw [components_ofNames_relative nonempty isName, List.length_map] at matched
  cases matched
  obtain ⟨isBase, names⟩ := isExpected.popN split
  exact .inr ⟨by simpa using other, isBase, by rw [names, split]⟩

/-- **Matched includes.** An absolute text is matched only when it is the file. A relative one is
matched from the including directory when it names the file there, and else from the directory that
is left when the names of the text are dropped from the file. From that directory the text names the
file exactly when it does not go up above its start or the directory is the root. -/
theorem matchInclude?_names (isExpected : expected.IsNormal) :
    (matchInclude? expected literal dir = some .absolute → (normalize (ofText literal)).same expected = true) ∧
      ∀ base, matchInclude? expected literal dir = some (.relative base) →
        (base = dir ∨ base.IsNormal ∧ expected.normalNames = base.normalNames ++ normalNames (ofText literal)) ∧
        ((absolute (ofText literal) base).same expected = true ↔
          (absolute (ofText literal) dir).same expected = true ∨ rise (ofText literal) = 0 ∨ base.normalNames = []) := by
  constructor
  · intro matched
    rw [matchInclude?] at matched
    split at matched
    · cases matched
    split at matched
    · split at matched
      · assumption
      · cases matched
    split at matched
    · cases matched
    simp only at matched
    split at matched <;> cases matched
  · intro base matched
    obtain ⟨relative, ⟨here, rfl⟩ | ⟨notHere, isBase, split⟩⟩ := matchInclude?_relative_cases isExpected matched
    · exact ⟨.inl rfl, iff_of_true here (.inl here)⟩
    refine ⟨.inr ⟨isBase, split⟩, ?_⟩
    have start : (base.push (ofText literal)).isAbsolute = true := (isAbsolute_push relative).trans isBase.1
    rw [absolute, if_neg (by simp [relative]), isExpected.same_normalize_iff start, normalNames_push_eq base relative,
      split, List.append_cancel_right_eq, notHere]
    constructor
    · intro whole
      -- Going up takes a name of the directory along unless it has none.
      have length := congrArg List.length whole
      rw [List.length_take] at length
      rw [← List.length_eq_zero_iff]
      omega
    · rintro (no | level | root)
      · cases no
      · rw [level, Nat.sub_zero, List.take_length]
      · rw [root, List.take_nil]

/-- A text with a `..` that normalization undoes, matched at the end of the file's path. -/
theorem matchInclude?_names_suffix :
    let expected : Path := .ofText "/t/lib/stuff.php"
    let literal := "./old/../lib//stuff.php"
    expected.IsNormal ∧ matchInclude? expected literal (.ofText "/elsewhere") = some (.relative (.ofText "/t")) ∧
      rise (ofText literal) = 0 ∧ (absolute (ofText literal) (.ofText "/t")).same expected = true := by
  intro expected literal
  have isExpected : expected.IsNormal := by constructor <;> decide +kernel
  have matched : matchInclude? expected literal (.ofText "/elsewhere") = some (.relative (.ofText "/t")) := by decide +kernel
  have level : rise (ofText literal) = 0 := by decide +kernel
  exact ⟨isExpected, matched, level, (((matchInclude?_names isExpected).2 _ matched).2).2 (.inr (.inl level))⟩

/-- A text that goes up above its start is matched, and names another file from the reported
directory. -/
theorem matchInclude?_strays :
    let expected : Path := .ofText "/t/stuff.php"
    let dir : Path := .ofText "/elsewhere"
    expected.IsNormal ∧ dir.IsNormal ∧
      ¬ ∀ base, matchInclude? expected "../stuff.php" dir = some (.relative base) →
        (absolute (.ofText "../stuff.php") base).same expected = true := by
  intro expected dir
  refine ⟨by constructor <;> decide +kernel, by constructor <;> decide +kernel, fun all => ?_⟩
  have matched : matchInclude? expected "../stuff.php" dir = some (.relative (.ofText "/t")) := by decide +kernel
  exact absurd (all _ matched) (by decide +kernel)

end PhpRename.Path
