import Mathlib.Data.List.Infix
import Mathlib.Data.List.TakeWhile
import PhpRename.TypeExpr.Basic

/-!
# Type texts

Whether a type text starts with a variable behind its call marks (`VariableRooted`), which texts are
variables alone (`Plain`), class names (`IsClass`) or hold a member access (`Accesses`), and which of two
type texts is nearer to a plain class name (`Nearer`).
-/

set_option autoImplicit false

namespace PhpRename.TypeExpr

/-! ## Variables at the root -/

/-- Behind its call marks the text starts with a variable. -/
def VariableRooted (text : String) : Prop := ∃ n rest, text.toList = List.replicate n '*' ++ '$' :: rest

theorem variableRooted_iff {text : String} : VariableRooted text ↔ isVariable (unmarked text) = true := by
  rw [isVariable, unmarked, String.toList_ofList, beq_iff_eq]
  constructor
  · rintro ⟨n, rest, chars⟩
    rw [chars, List.dropWhile_append_of_pos fun c mem => beq_iff_eq.2 (List.eq_of_mem_replicate mem)]
    rfl
  · intro starts
    obtain ⟨rest, behind⟩ := List.head?_eq_some_iff.1 starts
    refine ⟨(text.toList.takeWhile (· == callMark)).length, rest, ?_⟩
    have marks : text.toList.takeWhile (· == callMark) =
        List.replicate (text.toList.takeWhile (· == callMark)).length '*' :=
      List.eq_replicate_of_mem fun c mem => beq_iff_eq.1 (List.mem_takeWhile_imp (p := (· == callMark)) mem)
    rw [← marks, ← behind, List.takeWhile_append_dropWhile]

instance (text : String) : Decidable (VariableRooted text) := decidable_of_iff _ variableRooted_iff.symm

/-- What follows a text leaves its beginning. -/
theorem VariableRooted.append {text : String} (h : VariableRooted text) (more : String) :
    VariableRooted (text ++ more) := by
  obtain ⟨n, rest, chars⟩ := h
  exact ⟨n, rest ++ more.toList, by rw [String.toList_append, chars, List.append_assoc, List.cons_append]⟩

/-! ## Variables alone -/

/-- A text without a separator is a single link. -/
theorem links_of_single {cs : List Char} (single : ¬ separator.toList <:+: cs) : links cs = (cs, []) := by
  induction cs with
  | nil => rfl
  | cons c cs ih =>
    rw [links, ih (mt List.infix_cons single)]
    rintro rest rfl rfl
    exact single ⟨[], rest, rfl⟩

/-- The text is a variable, and no member of it. -/
structure Plain (text : String) : Prop where
  isVariable : isVariable text = true
  single : ¬ separator.toList <:+: text.toList

instance (text : String) : Decidable (Plain text) :=
  decidable_of_iff (isVariable text = true ∧ ¬ separator.toList <:+: text.toList)
    ⟨fun h => ⟨h.1, h.2⟩, fun h => ⟨h.isVariable, h.single⟩⟩

namespace Plain

variable {text : String} (plain : Plain text)
include plain

theorem exists_chars : ∃ rest, text.toList = '$' :: rest :=
  List.head?_eq_some_iff.1 (beq_iff_eq.1 plain.isVariable)

theorem unmarked_eq : unmarked text = text := by
  obtain ⟨rest, chars⟩ := plain.exists_chars
  rw [unmarked, chars, List.dropWhile_cons_of_neg (by decide), ← chars, String.ofList_toList]

theorem rootOf_eq : rootOf text = text := by
  rw [rootOf, plain.unmarked_eq, links_of_single plain.single, String.ofList_toList]

end Plain

/-! ## Call marks -/

/-- The text is neither empty nor marked as a call. -/
def Bare (text : String) : Prop := ∃ c rest, text.toList = c :: rest ∧ c ≠ callMark

theorem Bare.append {text : String} (h : Bare text) (more : String) : Bare (text ++ more) := by
  obtain ⟨c, rest, chars, other⟩ := h
  exact ⟨c, rest ++ more.toList, by rw [String.toList_append, chars, List.cons_append], other⟩

theorem Bare.head?_ne {text : String} (h : Bare text) : text.toList.head? ≠ some callMark := by
  obtain ⟨c, rest, chars, other⟩ := h
  rw [chars, List.head?_cons, ne_eq, Option.some.injEq]
  exact other

theorem Bare.ne_empty {text : String} (h : Bare text) : text ≠ "" := by
  obtain ⟨c, rest, chars, -⟩ := h
  rintro rfl
  cases chars

theorem head?_marked (text : String) : (marked text).toList.head? = some callMark := by
  rw [marked, String.toList_append]
  rfl

theorem not_bare_marked (text : String) : ¬ Bare (marked text) := fun h => h.head?_ne (head?_marked text)

theorem bare_of_isVariable {text : String} (h : isVariable text = true) : Bare text := by
  obtain ⟨rest, chars⟩ := List.head?_eq_some_iff.1 (beq_iff_eq.1 h)
  exact ⟨'$', rest, chars, by decide⟩

/-! ## Class names -/

/-- A text of one link is that link. -/
theorem links_of_none {cs : List Char} (single : (links cs).2 = []) : (links cs).1 = cs := by
  fun_induction links cs with
  | case1 => rfl
  | case2 rest ih => cases single
  | case3 c rest other ih => rw [ih single]

/-- The text is the name of a class. -/
def IsClass (text : String) : Prop := parse? text = some (named text)

instance (text : String) : Decidable (IsClass text) := inferInstanceAs (Decidable (_ = _))

/-- Just class names have the structure of one, and they are single links. -/
theorem isClass_of_parse? {text cls : String} (h : parse? text = some (named cls)) :
    text = cls ∧ (links text.toList).2 = [] := by
  rw [parse?] at h
  cases chars : text.toList with
  | nil =>
    rw [chars] at h
    cases h
  | cons c rest =>
    rw [chars, parseChars?] at h
    split at h
    · obtain ⟨callee, -, ⟨⟩⟩ := Option.map_eq_some_iff.1 h
    · split at h
      · rename_i base parts
        have single : (links (c :: rest)).2 = [] := congrArg Prod.snd parts
        have whole : base = c :: rest := (congrArg Prod.fst parts).symm.trans (links_of_none single)
        split at h
        · cases h
        · obtain rfl := named.inj (Option.some.inj h)
          exact ⟨by rw [whole, ← chars, String.ofList_toList], single⟩
      · cases h

namespace IsClass

variable {text : String} (h : IsClass text)
include h

theorem bare : Bare text := by
  rw [IsClass, parse?] at h
  cases chars : text.toList with
  | nil =>
    rw [chars] at h
    cases h
  | cons c rest =>
    refine ⟨c, rest, chars, ?_⟩
    rintro rfl
    rw [chars, parseChars?, if_pos (beq_self_eq_true callMark)] at h
    obtain ⟨callee, -, ⟨⟩⟩ := Option.map_eq_some_iff.1 h

theorem specificityOf_eq : specificityOf text = some 0 := by
  rw [specificityOf, h, Option.map_some, specificity]

end IsClass

/-! ## Member accesses -/

/-- The text holds a member access. -/
def Accesses (text : String) : Prop := separator.toList <:+: text.toList

theorem accesses_append (text member : String) : Accesses (text ++ separator ++ member) :=
  ⟨text.toList, member.toList, by simp only [String.toList_append]⟩

theorem Accesses.ne_empty {text : String} (h : Accesses text) : text ≠ "" := by
  rintro rfl
  exact absurd (List.infix_nil.1 h) (by decide)

theorem Accesses.marked {text : String} (h : Accesses text) : Accesses (marked text) := by
  rw [Accesses, TypeExpr.marked, String.toList_append]
  exact h.trans (List.suffix_append _ _).isInfix

/-- Behind the first link of a text with a member access comes a separator. -/
theorem separator_prefix_drop_links {cs : List Char} (h : separator.toList <:+: cs) :
    separator.toList <+: cs.drop (links cs).1.length := by
  fun_induction links cs with
  | case1 => exact absurd (List.infix_nil.1 h) (by decide)
  | case2 rest ih => exact ⟨rest, rfl⟩
  | case3 c rest other ih =>
    obtain starts | inside := List.infix_cons_iff.1 h
    · obtain ⟨behind, split⟩ := starts
      exact absurd (List.cons.inj split).1.symm fun dash => other behind dash (List.cons.inj split).2.symm
    · exact ih inside

/-- Call marks are no part of a separator. -/
theorem separator_infix_dropWhile {cs : List Char} (h : separator.toList <:+: cs) :
    separator.toList <:+: cs.dropWhile (· == callMark) := by
  induction cs with
  | nil => exact h
  | cons c rest ih =>
    rw [List.dropWhile_cons]
    split
    · rename_i mark
      obtain starts | inside := List.infix_cons_iff.1 h
      · obtain ⟨behind, split⟩ := starts
        rw [← (List.cons.inj split).1] at mark
        exact absurd mark (by decide)
      · exact ih inside
    · exact h

/-- Another root leaves the member accesses. -/
theorem Accesses.withRoot {text : String} (h : Accesses text) (root : String) : Accesses (withRoot text root) := by
  have inUnmarked : separator.toList <:+: (unmarked text).toList := by
    rw [unmarked, String.toList_ofList]
    exact separator_infix_dropWhile h
  have behind : separator.toList <:+: (afterRoot text).toList := by
    rw [afterRoot, String.toList_ofList, rootOf, String.length_ofList]
    exact (separator_prefix_drop_links inUnmarked).isInfix
  rw [Accesses, TypeExpr.withRoot, String.toList_append]
  exact behind.trans (List.suffix_append _ _).isInfix

/-- A text with a member access is no class name. -/
theorem Accesses.parse?_ne_named {text : String} (h : Accesses text) (cls : String) :
    parse? text ≠ some (named cls) := by
  intro parsed
  obtain ⟨-, single⟩ := isClass_of_parse? parsed
  have behind := separator_prefix_drop_links h
  rw [links_of_none single, List.drop_length] at behind
  exact absurd (List.prefix_nil.1 behind) (by decide)

/-! ## Chains -/

theorem Bare.render {text : String} (h : Bare text) (members : List String) : Bare (render (chain text members)) := by
  induction members generalizing text with
  | nil => exact h
  | cons member members ih => exact ih ((h.append separator).append member)

/-- The text of a chain tells its root from the names. -/
theorem render_chain_inj {a b : String} (members : List String) :
    render (chain a members) = render (chain b members) ↔ a = b := by
  induction members generalizing a b with
  | nil => exact Iff.rfl
  | cons member members ih =>
    refine (ih (a := a ++ separator ++ member) (b := b ++ separator ++ member)).trans ?_
    rw [String.append_left_inj, String.append_left_inj]

/-! ## Texts and their structure -/

/-- The links of a text, joined by separators, are the text. -/
theorem flatMap_links (cs : List Char) : (links cs).1 ++ (links cs).2.flatMap (separator.toList ++ ·) = cs := by
  fun_induction links cs with
  | case1 => rfl
  | case2 rest ih => rw [List.flatMap_cons, List.nil_append, List.append_assoc, ih]; rfl
  | case3 c rest other ih => rw [List.cons_append, ih]

theorem toList_render_chain (base : String) (members : List String) :
    (render (chain base members)).toList = base.toList ++ members.flatMap (separator.toList ++ ·.toList) := by
  induction members generalizing base with
  | nil => exact (List.append_nil _).symm
  | cons member members ih =>
    refine (ih (base ++ separator ++ member)).trans ?_
    rw [String.toList_append, String.toList_append, List.flatMap_cons, List.append_assoc, List.append_assoc,
      List.append_assoc]

/-- The text of the structure of a text is the text. -/
theorem toList_render_of_parseChars? {cs : List Char} {t : TypeExpr} (h : parseChars? cs = some t) :
    t.render.toList = cs := by
  induction cs generalizing t with
  | nil => cases h
  | cons c rest ih =>
    have joined := flatMap_links (c :: rest)
    rw [parseChars?] at h
    split at h
    · rename_i mark
      obtain ⟨callee, parsed, rfl⟩ := Option.map_eq_some_iff.1 h
      rw [render, marked, String.toList_append, ih parsed, eq_of_beq mark]
      rfl
    split at h
    · rename_i base single
      have text : base = c :: rest := by
        rw [single] at joined
        simpa using joined
      split at h <;> cases h <;> simp [render, text]
    · rename_i base members several
      cases h
      rw [several] at joined
      rw [toList_render_chain, String.toList_ofList, List.flatMap_map, ← joined]
      simp

theorem parse?_callee {text : String} {callee : TypeExpr} (h : parse? text = some (call callee)) :
    parse? callee.render = some callee := by
  rw [parse?] at h
  cases chars : text.toList with
  | nil => rw [chars] at h; cases h
  | cons c rest =>
    rw [chars, parseChars?] at h
    split at h
    · obtain ⟨inner, parsed, same⟩ := Option.map_eq_some_iff.1 h
      obtain rfl : inner = callee := TypeExpr.call.inj same
      rw [parse?, toList_render_of_parseChars? parsed, parsed]
    split at h
    · split at h <;> cases h
    · cases h

/-! ## Nearer types -/

variable {a b c : String}

/-- The first type text is strictly nearer to a plain class name. One without structure is farther
than all that have one. -/
def Nearer (a b : String) : Prop := ∃ n, specificityOf a = some n ∧ ∀ m, specificityOf b = some m → n < m

theorem Nearer.trans (h : Nearer a b) (h' : Nearer b c) : Nearer a c := by
  obtain ⟨n, ha, less⟩ := h
  obtain ⟨m, hb, less'⟩ := h'
  exact ⟨n, ha, fun k hc => Nat.lt_trans (less m hb) (less' k hc)⟩

/-- Nothing is nearer than a plain class name. -/
theorem Nearer.ne_zero (h : Nearer a b) : specificityOf b ≠ some 0 := by
  obtain ⟨n, -, less⟩ := h
  exact fun zero => Nat.not_lt_zero n (less 0 zero)

theorem atLeastAsSpecific_refl (a : Option Nat) : atLeastAsSpecific a a = true := by
  cases a with
  | none => rfl
  | some a => exact decide_eq_true (Nat.le_refl a)

/-- A type gives way just to a nearer one. -/
theorem nearer_iff : Nearer b a ↔ atLeastAsSpecific (specificityOf a) (specificityOf b) = false := by
  rw [Nearer]
  cases specificityOf b with
  | none => simp [atLeastAsSpecific]
  | some n => cases specificityOf a <;> simp [atLeastAsSpecific]

end PhpRename.TypeExpr
