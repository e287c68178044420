import PhpRename.Proofs.TypeExpr.Text

/-!
# Type texts read back

A type text is its call marks, its first link and the links behind it, and its structure holds all of them
(`parse?_readsBack`). Specificity goes through the structure, where a call takes the one for a variable at its root
off again; in the text it counts the separators, and one for a variable at the root or one for each call mark.
-/

set_option autoImplicit false

namespace PhpRename.TypeExpr

/-! ## Separators -/

/-- The number of places in a text where a separator stands. -/
def separators (cs : List Char) : Nat := cs.tails.countP (separator.toList.isPrefixOf ·)

theorem separators_cons (c : Char) (cs : List Char) :
    separators (c :: cs) = separators cs + if separator.toList <+: c :: cs then 1 else 0 := by
  simp only [separators, List.tails_cons, List.countP_cons, List.isPrefixOf_iff_prefix]

/-- A separator starts with a dash. -/
theorem separators_cons_of_ne {c : Char} (other : c ≠ '-') (cs : List Char) :
    separators (c :: cs) = separators cs := by
  rw [separators_cons, if_neg, Nat.add_zero]
  rintro ⟨rest, split⟩
  exact other (List.cons.inj split).1.symm

/-- Behind the first link comes one link for each separator. -/
theorem length_links (cs : List Char) : (links cs).2.length = separators cs := by
  fun_induction links cs with
  | case1 => rfl
  | case2 rest ih =>
    have here : separator.toList <+: '-' :: '>' :: rest := ⟨rest, rfl⟩
    rw [List.length_cons, ih, separators_cons, if_pos here, separators_cons_of_ne (by decide)]
  | case3 c rest other ih =>
    have none : ¬ separator.toList <+: c :: rest := by
      rintro ⟨behind, split⟩
      exact other behind (List.cons.inj split).1.symm (List.cons.inj split).2.symm
    rw [ih, separators_cons, if_neg none, Nat.add_zero]

/-- No separator stands in the first link. -/
theorem not_infix_links (cs : List Char) : ¬ separator.toList <:+: (links cs).1 := by
  fun_induction links cs with
  | case1 => decide
  | case2 rest ih => exact fun inside => absurd (List.infix_nil.1 inside) (by decide)
  | case3 c rest other ih =>
    intro inside
    obtain starts | inside := List.infix_cons_iff.1 inside
    · obtain ⟨behind, split⟩ := starts
      obtain ⟨dash, tail⟩ := List.cons.inj split
      -- The rest of the text begins as its first link does.
      have whole := flatMap_links rest
      rw [← tail] at whole
      exact other _ dash.symm whole.symm
    · exact ih inside

/-- The first link starts with a variable when the text does. -/
theorem isVariable_links (cs : List Char) : isVariable (String.ofList (links cs).1) = (cs.head? == some '$') := by
  rw [isVariable, String.toList_ofList]
  fun_cases links cs with
  | case1 => rfl
  | case2 rest => rfl
  | case3 c rest other => rfl

/-! ## The structure of a text -/

/-- A text without structure has only call marks. -/
theorem parseChars?_eq_none_iff {cs : List Char} : parseChars? cs = none ↔ ∀ c ∈ cs, c = callMark := by
  induction cs with
  | nil => simp [parseChars?]
  | cons c rest ih =>
    rw [parseChars?, List.forall_mem_cons]
    split
    · rename_i mark
      rw [Option.map_eq_none_iff, ih]
      simp [eq_of_beq mark]
    · rename_i other
      have bare : c ≠ callMark := fun same => other (beq_iff_eq.2 same)
      split
      · split <;> simp [bare]
      · simp [bare]

/-- What a text without a call mark in front stands for. -/
theorem parseChars?_of_ne {c : Char} {rest : List Char} {t : TypeExpr} (bare : c ≠ callMark)
    (h : parseChars? (c :: rest) = some t) :
    t.specificity = separators (c :: rest) + (if c = '$' then 1 else 0) ∧ t.isVariableRooted = (c == '$') := by
  have count := length_links (c :: rest)
  have root := isVariable_links (c :: rest)
  rw [List.head?_cons] at root
  rw [parseChars?, if_neg (by simpa using bare)] at h
  split at h
  · rename_i base single
    rw [single] at count root
    split at h
    · rename_i dollar
      cases h
      rw [specificity, isVariableRooted, root, ← count, eq_of_beq dollar]
      exact ⟨rfl, rfl⟩
    · rename_i other
      cases h
      rw [specificity, isVariableRooted, ← count, if_neg (by simpa using other), Bool.eq_false_iff.2 other]
      exact ⟨rfl, rfl⟩
  · rename_i base members _ several
    rw [several] at count root
    cases h
    rw [specificity, isVariableRooted, root, ← count, List.length_map]
    simp

/-- Specificity counts the separators of a text, and one for a variable at its root or one for each call mark. -/
theorem specificity_of_parseChars? {cs : List Char} {t : TypeExpr} (h : parseChars? cs = some t) :
    t.specificity = separators cs + if t.isVariableRooted then 1 else (cs.takeWhile (· == callMark)).length := by
  induction cs generalizing t with
  | nil => cases h
  | cons c rest ih =>
    by_cases mark : c = callMark
    · subst mark
      rw [parseChars?, if_pos (beq_self_eq_true callMark)] at h
      obtain ⟨callee, parsed, rfl⟩ := Option.map_eq_some_iff.1 h
      rw [specificity, isVariableRooted, ih parsed, separators_cons_of_ne (by decide), List.takeWhile_cons_of_pos (by rfl),
        List.length_cons]
      -- The call takes off what the callee counts for its variable, so nothing is taken off nothing.
      split <;> omega
    · obtain ⟨count, rooted⟩ := parseChars?_of_ne mark h
      rw [count, rooted, List.takeWhile_cons_of_neg (by simpa using mark), List.length_nil]
      simp only [beq_iff_eq]

/-! ## The parts of a text -/

/-- A text with at most one call mark in front has as many as tell whether it starts with one. -/
theorem length_marks_of_single {cs : List Char} (single : ¬ [callMark, callMark] <+: cs) :
    (cs.takeWhile (· == callMark)).length = if cs.head? = some callMark then 1 else 0 := by
  cases cs with
  | nil => rfl
  | cons c rest =>
    by_cases mark : c = callMark
    · subst mark
      have behind : rest.takeWhile (· == callMark) = [] := by
        cases rest with
        | nil => rfl
        | cons next more =>
          refine List.takeWhile_cons_of_neg fun again => single ?_
          rw [eq_of_beq again]
          exact ⟨more, rfl⟩
      rw [List.takeWhile_cons_of_pos (by rfl), behind, List.head?_cons, if_pos rfl]
      rfl
    · rw [List.takeWhile_cons_of_neg (by simpa using mark), List.head?_cons, if_neg (by simpa using mark)]
      rfl

/-- Behind at most one call mark, specificity counts the separators, and one when the text starts with a variable or
with a mark. -/
theorem specificityOf_of_single {text : String} (structured : parse? text ≠ none)
    (single : ¬ [callMark, callMark] <+: text.toList) :
    specificityOf text = some (separators text.toList +
      if text.toList.head? = some '$' ∨ text.toList.head? = some callMark then 1 else 0) := by
  obtain ⟨t, parsed⟩ := Option.ne_none_iff_exists'.1 structured
  rw [specificityOf, parsed, Option.map_some, specificity_of_parseChars? parsed, length_marks_of_single single]
  by_cases mark : text.toList.head? = some callMark
  · simp [mark]
  · have root : t.isVariableRooted = (text.toList.head? == some '$') := by
      cases chars : text.toList with
      | nil =>
        rw [parse?, chars] at parsed
        cases parsed
      | cons c rest =>
        rw [chars, List.head?_cons, Option.some.injEq] at mark
        rw [parse?, chars] at parsed
        exact (parseChars?_of_ne mark parsed).2
    simp [mark, root]

/-- A text that starts with neither a variable nor a call mark and holds no separator is the name of a class. -/
theorem parseChars?_of_plain {c : Char} {rest : List Char} (bare : c ≠ callMark) (other : c ≠ '$')
    (single : separators (c :: rest) = 0) :
    parseChars? (c :: rest) = some (named (String.ofList (c :: rest))) := by
  have none : (links (c :: rest)).2 = [] := List.length_eq_zero_iff.1 ((length_links (c :: rest)).trans single)
  have whole : links (c :: rest) = (c :: rest, []) := Prod.ext (links_of_none none) none
  rw [parseChars?, if_neg (by simpa using bare), whole]
  exact if_neg (by simpa using other)

/-- Just class names are no step away from one. -/
theorem specificityOf_eq_zero_iff {text : String} : specificityOf text = some 0 ↔ IsClass text := by
  refine ⟨fun zero => ?_, IsClass.specificityOf_eq⟩
  obtain ⟨t, parsed, none⟩ := Option.map_eq_some_iff.1 zero
  rw [parse?] at parsed
  rw [specificity_of_parseChars? parsed, Nat.add_eq_zero_iff] at none
  obtain ⟨single, none⟩ := none
  rw [IsClass, parse?]
  cases chars : text.toList with
  | nil =>
    rw [chars] at parsed
    cases parsed
  | cons c rest =>
    rw [chars] at parsed single none
    have bare : c ≠ callMark := by
      rintro rfl
      rw [List.takeWhile_cons_of_pos (by rfl), List.length_cons] at none
      split at none <;> cases none
    have other : c ≠ '$' := by
      rintro rfl
      rw [(parseChars?_of_ne bare parsed).2] at none
      cases none
    rw [parseChars?_of_plain bare other single, ← chars, String.ofList_toList]

/-- The call marks of a text, its first link and what follows the link. -/
theorem exists_parts (text : String) : ∃ n rest,
    text.toList = List.replicate n callMark ++ (rootOf text).toList ++ rest ∧
      (rest = [] ∨ separator.toList <+: rest) := by
  have marks : text.toList.takeWhile (· == callMark) =
      List.replicate (text.toList.takeWhile (· == callMark)).length callMark :=
    List.eq_replicate_of_mem fun c mem => beq_iff_eq.1 (List.mem_takeWhile_imp (p := (· == callMark)) mem)
  have joined := flatMap_links (text.toList.dropWhile (· == callMark))
  refine ⟨(text.toList.takeWhile (· == callMark)).length,
    (links (text.toList.dropWhile (· == callMark))).2.flatMap (separator.toList ++ ·), ?_, ?_⟩
  · rw [← marks, rootOf, unmarked, String.toList_ofList, String.toList_ofList, List.append_assoc, joined,
      List.takeWhile_append_dropWhile]
  · cases (links (text.toList.dropWhile (· == callMark))).2 with
    | nil => exact .inl rfl
    | cons link more => exact .inr ⟨_, (List.append_assoc ..).symm⟩

/-- The first link of a text without its call marks holds no separator and starts with no mark. -/
theorem rootOf_spec (text : String) :
    ¬ separator.toList <:+: (rootOf text).toList ∧ (rootOf text).toList.head? ≠ some callMark := by
  rw [rootOf, String.toList_ofList]
  refine ⟨not_infix_links _, fun mark => ?_⟩
  have start := List.head?_dropWhile_not (· == callMark) text.toList
  rw [unmarked, String.toList_ofList] at mark
  have joined := flatMap_links (text.toList.dropWhile (· == callMark))
  obtain ⟨link, first⟩ := List.head?_eq_some_iff.1 mark
  rw [← joined, first] at start
  simp at start

/-- **Type texts read back.** A text has no structure exactly when it has only call marks, and otherwise the structure
is written as the text. The text is its leading call marks, its first link, which holds no separator, and what follows
the link, nothing or a separator and more. Behind at most one call mark, the specificity of the structure is the number
of separators, and one more for a text that starts with a variable or with a mark; it is zero just for class names. -/
theorem parse?_readsBack (text : String) :
    (parse? text = none ↔ ∀ c ∈ text.toList, c = callMark) ∧
      (∀ t, parse? text = some t → t.render = text) ∧
      (∃ n rest, text.toList = List.replicate n callMark ++ (rootOf text).toList ++ rest ∧
        (rootOf text).toList.head? ≠ some callMark ∧ ¬ separator.toList <:+: (rootOf text).toList ∧
        (rest = [] ∨ separator.toList <+: rest)) ∧
      (parse? text ≠ none → ¬ [callMark, callMark] <+: text.toList →
        specificityOf text = some (separators text.toList +
          if text.toList.head? = some '$' ∨ text.toList.head? = some callMark then 1 else 0)) ∧
      (specificityOf text = some 0 ↔ IsClass text) := by
  refine ⟨parseChars?_eq_none_iff, fun t parsed => ?_, ?_, specificityOf_of_single, specificityOf_eq_zero_iff⟩
  · exact String.toList_inj.1 (toList_render_of_parseChars? parsed)
  · obtain ⟨n, rest, whole, behind⟩ := exists_parts text
    obtain ⟨single, bare⟩ := rootOf_spec text
    exact ⟨n, rest, whole, bare, single, behind⟩

/-- A marked chain of a variable with an empty link in it. -/
theorem parse?_readsBack_call :
    let text := "*$a->->make"
    parse? text ≠ none ∧ ¬ [callMark, callMark] <+: text.toList ∧
      parse? text = some (call (chain "$a" ["", "make"])) ∧ rootOf text = "$a" ∧ specificityOf text = some 3 := by
  intro text
  have structured : parse? text ≠ none := by decide +kernel
  have single : ¬ [callMark, callMark] <+: text.toList := by decide +kernel
  refine ⟨structured, single, by decide +kernel, by decide +kernel, ?_⟩
  rw [(parse?_readsBack text).2.2.2.1 structured single]
  decide +kernel

end PhpRename.TypeExpr
