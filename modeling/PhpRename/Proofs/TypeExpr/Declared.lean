import PhpRename.Proofs.Name.Label
import PhpRename.Proofs.Path.Segments
import PhpRename.TypeExpr.Declared

/-!
# New class names in declared types

A class may get every name that `Name.classFault?` accepts, and `className?` has to find it again in the types of
the program. The tables of the two agree but for six words, `scalars`, which no type takes for a class: see
`className?_of_accepted`. Names count that start with a letter or an underscore and do not end with white space.
-/

set_option autoImplicit false

namespace PhpRename

namespace CodePoints

/-- No character is in two sets whose ranges lie apart. -/
theorem notMem_of_apart {set other : CodePoints} (apart : ∀ r ∈ set, ∀ s ∈ other, r.2 < s.1 ∨ s.2 < r.1) {c : Char}
    (mem : set.mem c = true) : other.mem c = false := by
  refine Bool.eq_false_iff.2 fun also => ?_
  obtain ⟨r, hr, low, high⟩ := (mem_iff set c).1 mem
  obtain ⟨s, hs, low', high'⟩ := (mem_iff other c).1 also
  have := apart r hr s hs
  omega

end CodePoints

theorem Letter.notBlank {c : Char} (letter : isAlphabetic c = true) : Blank.isBlank c = false :=
  CodePoints.notMem_of_apart (by decide +kernel) letter

/-! ## Ends of a text -/

theorem Text.stripEnds_eq_self {test : Char → Bool} {cs : List Char} (none : ∀ c ∈ cs, test c = false) :
    stripEnds test cs = cs := by
  have keep : ∀ {l : List Char}, (∀ c ∈ l, test c = false) → l.dropWhile test = l := by
    intro l none
    cases l with
    | nil => rfl
    | cons c l => exact List.dropWhile_cons_of_neg (Bool.eq_false_iff.1 (none c (List.mem_cons_self ..)))
  rw [stripEnds, keep none, keep fun c mem => none c (List.mem_reverse.1 mem), List.reverse_reverse]

namespace Name

/-- Namespaces in front of a name, each with its backslash. -/
def namespaced : List String → String
  | [] => ""
  | n :: rest => n ++ "\\" ++ namespaced rest

theorem isQualifier_namespaced (namespaces : List String) : IsQualifier (namespaced namespaces) := by
  induction namespaces with
  | nil => exact .inl rfl
  | cons n rest ih =>
    obtain none | ⟨before, same⟩ := ih
    · exact .inr ⟨n, by rw [namespaced, none, String.append_empty]⟩
    · exact .inr ⟨n ++ "\\" ++ before, by rw [namespaced, same, ← String.append_assoc]⟩

theorem isQualifier_rooted {root : String} (rooted : root = "" ∨ root = "\\") (namespaces : List String) :
    IsQualifier (root ++ namespaced namespaces) := by
  obtain none | ⟨before, same⟩ := isQualifier_namespaced namespaces
  · rw [none, String.append_empty]
    exact rooted.imp_right fun same => ⟨"", same⟩
  · exact .inr ⟨root ++ before, by rw [same, ← String.append_assoc]⟩

/-- A character of a qualified name. -/
def InPath (c : Char) : Prop := inLabel c = true ∨ c = '\\'

theorem inPath_of_mem_namespaced {namespaces : List String} (labels : ∀ n ∈ namespaces, IsLabel n) {c : Char}
    (mem : c ∈ (namespaced namespaces).toList) : InPath c := by
  induction namespaces with
  | nil => cases mem
  | cons n rest ih =>
    rw [namespaced, String.toList_append, String.toList_append, List.mem_append, List.mem_append] at mem
    obtain (mem | mem) | mem := mem
    · exact .inl ((labels n (List.mem_cons_self ..)).inLabel_of_mem c mem)
    · exact .inr (List.mem_singleton.1 mem)
    · exact ih (fun m hm => labels m (List.mem_cons_of_mem n hm)) mem

theorem InPath.ne {c d : Char} (h : InPath c) (no : inLabel d = false) (other : d ≠ '\\') : c ≠ d := by
  rintro rfl
  obtain holds | same := h
  · rw [no] at holds
    cases holds
  · exact other same

end Name

namespace Declared

open Name

/-- Words that a class may have for a name, in any letter case, and that no declared type takes for a class. -/
def scalars : List String := ["integer", "double", "boolean", "resource", "scalar", "numeric"]

/-- Whether a name is one of these words. -/
def isScalar (name : String) : Bool := scalars.any (Ascii.sameIgnoringCase · name)

/-! ## Tables -/

/-- What names no class is one of these words or reserved. -/
theorem builtin_any {name : String} (free : isReserved name = false) :
    builtin.any (Ascii.sameIgnoringCase · name) = isScalar name := by
  have known : ∀ word ∈ builtin, word ∈ scalars ∨ word ∈ reservedWords ++ reservedTypes := by decide +kernel
  have listed : ∀ word ∈ scalars, word ∈ builtin := by decide +kernel
  rw [Bool.eq_iff_iff, isScalar, List.any_eq_true, List.any_eq_true]
  constructor
  · rintro ⟨word, mem, same⟩
    obtain mem | mem := known word mem
    · exact ⟨word, mem, same⟩
    · exact absurd (List.any_eq_true.2 ⟨word, mem, same⟩) (Bool.eq_false_iff.1 free)
  · rintro ⟨word, mem, same⟩
    exact ⟨word, listed word mem, same⟩

theorem isReserved_of_classFault? {name : String} (h : classFault? name = none) : isReserved name = false := by
  rw [classFault?, labelFault?_eq_none_iff.2 (isLabel_of_classFault? h)] at h
  refine Bool.eq_false_iff.2 fun reserved => ?_
  rw [if_pos reserved] at h
  cases h

/-! ## One member of a type -/

/-- A new class name, as this module has it: a letter or an underscore first, and no white space last. -/
structure IsFound (name : String) : Prop where
  label : IsLabel name
  starts : ∃ c rest, name.toList = c :: rest ∧ (Letter.isAlphabetic c || c == '_') = true
  ends : ∀ c ∈ name.toList.getLast?, Blank.isBlank c = false

namespace IsFound

variable {name q : String}

theorem head_notBlank (found : IsFound name) : name.toList.dropWhile Blank.isBlank = name.toList := by
  obtain ⟨c, rest, split, starts⟩ := found.starts
  rw [split]
  refine List.dropWhile_cons_of_neg (Bool.eq_false_iff.1 ?_)
  obtain letter | underscore := Bool.or_eq_true_iff.1 starts
  · exact Letter.notBlank letter
  · rw [beq_iff_eq.1 underscore]
    rfl

theorem trimEnd_eq (found : IsFound name) (front : List Char) :
    Blank.trimEnd (front ++ name.toList) = front ++ name.toList := by
  have last := found.ends
  cases split : name.toList.reverse with
  | nil => exact absurd (List.reverse_eq_nil_iff.1 split) found.label.nonempty
  | cons c rest =>
    have here : Blank.isBlank c = false := last c (by rw [List.getLast?_eq_head?_reverse, split]; rfl)
    rw [Blank.trimEnd, List.reverse_append, split, List.cons_append,
      List.dropWhile_cons_of_neg (Bool.eq_false_iff.1 here), ← List.cons_append, ← split, List.reverse_append,
      List.reverse_reverse, List.reverse_reverse]

/-- White space around a qualified name takes nothing from the name. -/
theorem trim_eq (found : IsFound name) (qualifies : IsQualifier q) : ∃ q', IsQualifier q' ∧
    (∀ c ∈ q'.toList, c ∈ q.toList) ∧ Blank.trim (q.toList ++ name.toList) = q'.toList ++ name.toList := by
  obtain rfl | ⟨before, rfl⟩ := qualifies
  · refine ⟨"", .inl rfl, fun _ mem => mem, ?_⟩
    rw [Blank.trim, Blank.trimStart, show "".toList ++ name.toList = name.toList from rfl, found.head_notBlank]
    exact found.trimEnd_eq []
  · have start : (before.toList ++ ['\\']).dropWhile Blank.isBlank =
        before.toList.dropWhile Blank.isBlank ++ ['\\'] := by
      rw [List.dropWhile_append]
      split
      next empty => rw [List.isEmpty_iff.1 empty]; rfl
      next => rfl
    refine ⟨String.ofList (before.toList.dropWhile Blank.isBlank) ++ "\\", .inr ⟨_, rfl⟩, fun c mem => ?_, ?_⟩
    · rw [String.toList_append, String.toList_ofList] at mem
      rw [String.toList_append]
      exact List.mem_append.2 ((List.mem_append.1 mem).imp_left fun mem => (List.dropWhile_sublist _).mem mem)
    · have cut : (before ++ "\\").toList = before.toList ++ ['\\'] := String.toList_append
      rw [cut, Blank.trim, Blank.trimStart, List.dropWhile_append, start, if_neg (by simp), String.toList_append,
        String.toList_ofList]
      exact found.trimEnd_eq _

end IsFound

section

variable {cs : List Char} (path : ∀ c ∈ cs, InPath c)
include path

theorem dropWhile_question : cs.dropWhile (· == '?') = cs := by
  cases cs with
  | nil => rfl
  | cons c cs =>
    have other := (path c (List.mem_cons_self ..)).ne (d := '?') (by decide) (by decide)
    exact List.dropWhile_cons_of_neg (by simpa using other)

theorem stripEnds_isParen : Text.stripEnds isParen cs = cs := by
  refine Text.stripEnds_eq_self fun c mem => ?_
  rw [isParen, Bool.or_eq_false_iff, beq_eq_false_iff_ne, beq_eq_false_iff_ne]
  exact ⟨(path c mem).ne (by decide) (by decide), (path c mem).ne (by decide) (by decide)⟩

theorem isPlain_of_inPath (nonempty : cs ≠ []) : isPlain cs = true := by
  have noBracket : [']', '['].isPrefixOf cs.reverse = false := by
    refine Bool.eq_false_iff.2 fun bracket => ?_
    have mem := (List.isPrefixOf_iff_prefix.1 bracket).subset (List.mem_cons_self ..)
    exact (path ']' (List.mem_reverse.1 mem)).ne (d := ']') (by decide) (by decide) rfl
  have noAngle : cs.contains '<' = false := by
    refine Bool.eq_false_iff.2 fun angle => ?_
    exact (path '<' (List.contains_iff_mem.1 angle)).ne (d := '<') (by decide) (by decide) rfl
  rw [isPlain, noBracket, noAngle, List.isEmpty_eq_false_iff.2 nonempty]
  rfl

end

namespace IsFound

variable {name q : String}

/-- A member that is the name, qualified or not and nullable or not, is bare but for a namespace. -/
theorem bare_eq (found : IsFound name) (qualifies : IsQualifier q) (path : ∀ c ∈ q.toList, InPath c)
    {mark : List Char} (marks : mark = [] ∨ mark = ['?']) : ∃ q', IsQualifier q' ∧
      (∀ c ∈ q'.toList ++ name.toList, InPath c) ∧ bare (mark ++ (q.toList ++ name.toList)) = q'.toList ++ name.toList := by
  have inPath : ∀ q' : String, (∀ c ∈ q'.toList, c ∈ q.toList) → ∀ c ∈ q'.toList ++ name.toList, InPath c := by
    intro q' taken c mem
    obtain mem | mem := List.mem_append.1 mem
    · exact path c (taken c mem)
    · exact .inl (found.label.inLabel_of_mem c mem)
  obtain rfl | rfl := marks
  · obtain ⟨q', qualifies', taken, trimmed⟩ := found.trim_eq qualifies
    have path' := inPath q' taken
    refine ⟨q', qualifies', path', ?_⟩
    rw [bare, List.nil_append, trimmed, dropWhile_question path', stripEnds_isParen path']
  · have path' := inPath q fun _ mem => mem
    have trimmed : Blank.trim (['?'] ++ (q.toList ++ name.toList)) = ['?'] ++ (q.toList ++ name.toList) := by
      rw [Blank.trim, Blank.trimStart, List.dropWhile_append, if_neg (by decide), ← List.append_assoc]
      exact found.trimEnd_eq _
    refine ⟨q, qualifies, path', ?_⟩
    rw [bare, trimmed, List.singleton_append, List.dropWhile_cons_of_pos rfl, dropWhile_question path',
      stripEnds_isParen path']

theorem namesClass_eq (found : IsFound name) (free : isReserved name = false) : namesClass name = !isScalar name := by
  obtain ⟨c, rest, split, starts⟩ := found.starts
  rw [namesClass, builtin_any free, split, List.head?_cons, Option.any_some, starts, Bool.and_true]

/-- The members of such a type, each without its namespace: the name alone. -/
theorem members_eq (found : IsFound name) (qualifies : IsQualifier q) (path : ∀ c ∈ q.toList, InPath c)
    {mark : List Char} (marks : mark = [] ∨ mark = ['?']) :
    (((Text.splitOn (fun c => c == '|' || c == '&') (mark ++ (q.toList ++ name.toList))).map bare).filter isPlain).map
      (fun m => short (String.ofList m)) = [name] := by
  have whole : ∀ c ∈ mark ++ (q.toList ++ name.toList), (c == '|' || c == '&') = false := by
    intro c mem
    rw [Bool.or_eq_false_iff, beq_eq_false_iff_ne, beq_eq_false_iff_ne]
    obtain mem | mem | mem := by simpa only [List.mem_append] using mem
    · obtain rfl | rfl := marks
      · cases mem
      · rw [List.mem_singleton.1 mem]
        decide
    · exact ⟨(path c mem).ne (by decide) (by decide), (path c mem).ne (by decide) (by decide)⟩
    · have here : InPath c := .inl (found.label.inLabel_of_mem c mem)
      exact ⟨here.ne (by decide) (by decide), here.ne (by decide) (by decide)⟩
  obtain ⟨q', qualifies', path', bared⟩ := found.bare_eq qualifies path marks
  have nonempty : q'.toList ++ name.toList ≠ [] := List.append_ne_nil_of_right_ne_nil _ found.label.nonempty
  rw [Text.splitOn_of_none whole, List.map_singleton, bared, List.filter_singleton, isPlain_of_inPath path' nonempty,
    cond_true, List.map_singleton, String.ofList_append, String.ofList_toList, String.ofList_toList,
    found.label.short_append qualifies']

theorem className?_eq (found : IsFound name) (free : isReserved name = false) (qualifies : IsQualifier q)
    (path : ∀ c ∈ q.toList, InPath c) {mark : String} (marks : mark ∈ ["", "?", "null|"]) :
    className? (mark ++ q ++ name) = if isScalar name then none else some name := by
  have last : [name].find? namesClass = if isScalar name then none else some name := by
    rw [List.find?_singleton, found.namesClass_eq free]
    cases isScalar name <;> rfl
  have text : (mark ++ q ++ name).toList = mark.toList ++ (q.toList ++ name.toList) := by
    rw [String.toList_append, String.toList_append, List.append_assoc]
  rw [className?, text]
  simp only [List.mem_cons, List.not_mem_nil, or_false] at marks
  obtain rfl | rfl | rfl := marks
  · exact (congrArg (List.find? namesClass) (found.members_eq qualifies path (.inl rfl))).trans last
  · exact (congrArg (List.find? namesClass) (found.members_eq qualifies path (.inr rfl))).trans last
  · -- The first member of the union names no class.
    have members := found.members_eq qualifies path (.inl (rfl : ([] : List Char) = []))
    have null : ((((Text.splitOn (fun c => c == '|' || c == '&') "null".toList).map bare).filter isPlain).map
      fun m => short (String.ofList m)) = ["null"] := by decide +kernel
    have other : namesClass "null" = false := by decide +kernel
    rw [show "null|".toList ++ (q.toList ++ name.toList) = "null".toList ++ '|' :: ([] ++ (q.toList ++ name.toList)) from
      rfl, Text.splitOn_append rfl]
    simp only [List.map_append, List.filter_append]
    rw [null, members, List.singleton_append, List.find?_cons_of_neg (Bool.eq_false_iff.1 other), last]

end IsFound

/-- **New class names in declared types.** A name that a class may be renamed to, with a letter or an underscore
first and no white space last, is the class of every type that it spells: alone, with namespaces and a backslash in
front of it, nullable, or in a union with null. The words of `scalars` are of no class, in any letter case. -/
theorem className?_of_accepted {name : String} (accepted : Name.accept Name.classFault? name = .ok ())
    (starts : ∃ c rest, name.toList = c :: rest ∧ (Letter.isAlphabetic c || c == '_') = true)
    (ends : ∀ c ∈ name.toList.getLast?, Blank.isBlank c = false) {namespaces : List String}
    (listed : ∀ n ∈ namespaces, Name.accept Name.labelFault? n = .ok ()) {root mark : String}
    (rooted : root ∈ ["", "\\"]) (marks : mark ∈ ["", "?", "null|"]) :
    className? (mark ++ (root ++ Name.namespaced namespaces) ++ name) =
      if scalars.any (Ascii.sameIgnoringCase · name) then none else some name := by
  have fault := accept_ok_iff.1 accepted
  have found : IsFound name := ⟨isLabel_of_classFault? fault, starts, ends⟩
  have labels : ∀ n ∈ namespaces, IsLabel n := fun n mem => labelFault?_eq_none_iff.1 (accept_ok_iff.1 (listed n mem))
  have roots : root = "" ∨ root = "\\" := by simpa using rooted
  refine found.className?_eq (isReserved_of_classFault? fault) (isQualifier_rooted roots namespaces) ?_ marks
  intro c mem
  rw [String.toList_append] at mem
  obtain mem | mem := List.mem_append.1 mem
  · obtain rfl | rfl := roots
    · cases mem
    · exact .inr (List.mem_singleton.1 mem)
  · exact inPath_of_mem_namespaced labels mem

/-- A name with letters outside ASCII in a reserved namespace, nullable. -/
theorem className?_of_accepted_unicode :
    Name.accept Name.classFault? "Größe" = .ok () ∧
      className? ("?" ++ ("\\" ++ Name.namespaced ["App", "List"]) ++ "Größe") = some "Größe" := by
  have accepted : Name.accept Name.classFault? "Größe" = .ok () := by decide +kernel
  have listed : ∀ n ∈ ["App", "List"], Name.accept Name.labelFault? n = .ok () := by decide +kernel
  have last : "Größe".toList.getLast? = some 'e' := by decide +kernel
  have ends : ∀ c ∈ "Größe".toList.getLast?, Blank.isBlank c = false := by
    intro c mem
    obtain rfl : 'e' = c := Option.some.inj (last.symm.trans mem)
    decide
  exact ⟨accepted, (className?_of_accepted accepted ⟨'G', _, rfl, by decide +kernel⟩ ends listed
    (by decide : "\\" ∈ ["", "\\"]) (by decide : "?" ∈ ["", "?", "null|"])).trans (if_neg (by decide +kernel))⟩

/-- The words of the table, names that start with a character outside ASCII that is no letter, and names with white
space outside ASCII at their end are accepted, but as types they do not name the class. -/
theorem accepted_but_not_found :
    (Name.accept Name.classFault? "Integer" = .ok () ∧ className? "Integer" ≠ some "Integer") ∧
      (Name.accept Name.classFault? "€uro" = .ok () ∧ className? "€uro" ≠ some "€uro") ∧
        Name.accept Name.classFault? "Foo\u00a0" = .ok () ∧ className? "Foo\u00a0" ≠ some "Foo\u00a0" := by
  decide +kernel

end Declared

end PhpRename
