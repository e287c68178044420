import PhpRename.Proofs.Bindings.Lookup
import PhpRename.Proofs.TypeExpr.Text
import PhpRename.Workspace

/-!
# Inherited members

Where a look-up of a member of a class goes, once neither the file itself nor one that it includes binds
the name: to the class and its parents, nearest first. Each is asked in the file that is looked at and then
in the file that declares it, and the first one with a binding answers (`lookup?_inherited`). So a parent
never hides a binding of a nearer class, wherever the two are declared.
-/

set_option autoImplicit false

namespace PhpRename

/-! ## Names of members -/

namespace TypeExpr

/-- In front of a separator, a text without one is the first link. -/
theorem links_append_separator {cs : List Char} (single : (links cs).2 = []) (rest : List Char) :
    (links (cs ++ (separator.toList ++ rest))).1 = cs := by
  fun_induction links cs with
  | case1 => rfl
  | case2 => cases single
  | case3 c cs other ih =>
    rw [List.cons_append, links, ih single]
    rintro more rfl split
    cases cs with
    | nil => exact absurd (List.cons.inj split).1 (by decide)
    | cons d cs => exact other cs rfl (by rw [(List.cons.inj split).1])

theorem IsClass.isVariable_eq {text : String} (h : IsClass text) : isVariable text = false := by
  refine Bool.eq_false_iff.2 fun starts => ?_
  obtain ⟨rest, chars⟩ := List.head?_eq_some_iff.1 (beq_iff_eq.1 starts)
  rw [IsClass, parse?, chars, parseChars?, if_neg (by decide)] at h
  split at h
  · rw [if_pos (beq_self_eq_true '$')] at h
    cases h
  · cases h

/-- The member of a class, behind call marks or none. -/
def memberText (mark cls member : String) : String := mark ++ cls ++ separator ++ member

theorem toList_memberText (mark cls member : String) :
    (memberText mark cls member).toList = mark.toList ++ (cls.toList ++ (separator.toList ++ member.toList)) := by
  simp only [memberText, String.toList_append, List.append_assoc]

section

variable {mark cls member : String} (marks : ∀ c ∈ mark.toList, c = callMark) (isClass : IsClass cls)
include marks isClass

theorem toList_unmarked_memberText :
    (unmarked (memberText mark cls member)).toList = cls.toList ++ (separator.toList ++ member.toList) := by
  obtain ⟨c, rest, chars, other⟩ := isClass.bare
  rw [unmarked, String.toList_ofList, toList_memberText,
    List.dropWhile_append_of_pos fun c mem => beq_iff_eq.2 (marks c mem), chars, List.cons_append,
    List.dropWhile_cons_of_neg (by simpa using other)]

theorem marks_memberText : TypeExpr.marks (memberText mark cls member) = mark := by
  obtain ⟨c, rest, chars, other⟩ := isClass.bare
  rw [TypeExpr.marks, toList_memberText, List.takeWhile_append_of_pos fun c mem => beq_iff_eq.2 (marks c mem), chars,
    List.cons_append, List.takeWhile_cons_of_neg (by simpa using other), List.append_nil, String.ofList_toList]

/-- The class is the root of the name. -/
theorem rootOf_memberText : rootOf (memberText mark cls member) = cls := by
  rw [rootOf, toList_unmarked_memberText marks isClass, links_append_separator (isClass_of_parse? isClass).2,
    String.ofList_toList]

theorem afterRoot_memberText : afterRoot (memberText mark cls member) = separator ++ member := by
  rw [afterRoot, toList_unmarked_memberText marks isClass, rootOf_memberText marks isClass, ← String.length_toList,
    List.drop_left, ← String.toList_append, String.ofList_toList]

/-- With another root, the name is that of the member of the other class. -/
theorem withRoot_memberText (other : String) :
    withRoot (memberText mark cls member) other = memberText mark other member := by
  rw [withRoot, marks_memberText marks isClass, afterRoot_memberText marks isClass, ← String.append_assoc, memberText]

theorem isVariable_memberText : isVariable (unmarked (memberText mark cls member)) = false := by
  obtain ⟨c, rest, chars, -⟩ := isClass.bare
  have first := isClass.isVariable_eq
  rw [isVariable, chars] at first
  rw [isVariable, toList_unmarked_memberText marks isClass, chars]
  exact first

end

end TypeExpr

open TypeExpr

namespace Resolver

/-! ## Classes that provide a member -/

/-- The name of a file in bindings; the file that is looked at goes by its own name, however it is
spelled. -/
def nameOf (r : Resolver) (file : Path) : String := if file.same r.path then r.file else file.text

/-- What a class provides for a member, in a look-up that starts from the class `start`: the binding in the
file that is looked at, or where that has none the one in the file that declares the class. The class that
the look-up starts from has been looked for in the former already. -/
inductive Provides (r : Resolver) (start mark member cls type : String) : Prop
  | here (other : cls ≠ start)
      (bound : r.bindings.lookup? (memberText mark cls member) r.file globalScope endOfFile = some type)
  | declared (unbound : cls ≠ start →
        r.bindings.lookup? (memberText mark cls member) r.file globalScope endOfFile = none)
      (file : Path) (declares : r.classes.file? cls = some file)
      (bound : r.bindings.lookup? (memberText mark cls member) (r.nameOf file) globalScope endOfFile = some type)

variable {r : Resolver} {index : Nat} {mark start member cls type : String}

/-- Where a name has no binding as seen from one position, it has none from any other. -/
theorem lookup?_eq_none_of_position {s : Bindings} {name file : String} {scope position other : Int}
    (unbound : s.lookup? name file scope position = none) : s.lookup? name file scope other = none :=
  Bindings.lookup?_eq_none_iff.2 (Bindings.lookup?_eq_none_iff.1 unbound)

section

variable (marks : ∀ c ∈ mark.toList, c = callMark) (isClass : IsClass start)
  (unbound : r.bindings.lookup? (memberText mark start member) r.file globalScope index = none)
include marks isClass unbound

/-- What the look-up finds for a class is what the class provides: to pass over the file that is looked at,
where that declares the class, loses nothing. -/
theorem lookupMember?_eq_some_iff :
    r.lookupMember? (memberText mark start member) false cls = some type ↔ r.Provides start mark member cls type := by
  have fromEnd : r.bindings.lookup? (memberText mark start member) r.file globalScope endOfFile = none :=
    lookup?_eq_none_of_position unbound
  have noneHere
      (h : cls ≠ start → r.bindings.lookup? (memberText mark cls member) r.file globalScope endOfFile = none) :
      r.bindings.lookup? (memberText mark cls member) r.file globalScope endOfFile = none := by
    by_cases same : cls = start
    · rw [same, fromEnd]
    · exact h same
  rw [lookupMember?, withRoot_memberText marks isClass, if_neg Bool.false_ne_true, Option.or_eq_some_iff,
    Option.bind_eq_some_iff]
  constructor
  · rintro (here | ⟨noneHere, file, declares, found⟩)
    · refine .here ?_ here
      rintro rfl
      rw [fromEnd] at here
      cases here
    · split at found
      · cases found
      · rename_i elsewhere
        refine .declared (fun _ => noneHere) file declares ?_
        rw [nameOf, if_neg elsewhere]
        exact found
  · rintro (⟨other, here⟩ | ⟨nothing, file, declares, found⟩)
    · exact .inl here
    · refine .inr ⟨noneHere nothing, file, declares, ?_⟩
      rw [nameOf] at found
      split at found
      · rw [noneHere nothing] at found
        cases found
      · rename_i elsewhere
        rw [if_neg elsewhere]
        exact found

/-- The class that the look-up starts from is asked like its parents. -/
theorem lookupMember?_start :
    r.lookupMember? (memberText mark start member) true start =
      r.lookupMember? (memberText mark start member) false start := by
  have fromEnd : r.bindings.lookup? (memberText mark start member) r.file globalScope endOfFile = none :=
    lookup?_eq_none_of_position unbound
  rw [lookupMember?, lookupMember?, withRoot_memberText marks isClass, if_pos rfl, if_neg Bool.false_ne_true, fromEnd]

/-- The look-up asks the class and its parents, in order, for what they provide. -/
theorem lookup?_memberText
    (notIncluded : ∀ p ∈ r.includes.of r.path,
      r.bindings.lookup? (memberText mark start member) p.text globalScope endOfFile = none) :
    r.lookup? index (memberText mark start member) =
      (start :: r.classes.ancestors start).findSome? (r.lookupMember? (memberText mark start member) false) := by
  have global : r.scopeOf index (memberText mark start member) = globalScope := by
    rw [scopeOf, isVariable_memberText marks isClass, if_neg Bool.false_ne_true]
  have hasMember : (afterRoot (memberText mark start member)).isEmpty = false := by
    rw [afterRoot_memberText marks isClass, Bool.eq_false_iff, ne_eq, String.isEmpty_iff, String.append_eq_empty_iff]
    exact fun nothing => absurd nothing.1 (by decide)
  have included : (r.includes.of r.path).findSome? (fun p =>
      r.bindings.lookup? (memberText mark start member) p.text globalScope endOfFile) = none :=
    List.findSome?_eq_none_iff.2 notIncluded
  rw [lookup?]
  simp only [global, unbound, included, bne_self_eq_false, Bool.false_eq_true, if_false, Option.none_or]
  rw [lookupInherited?, isVariable_memberText marks isClass, hasMember, Bool.or_self, if_neg Bool.false_ne_true,
    rootOf_memberText marks isClass, lookupMember?_start marks isClass unbound, List.findSome?_cons]
  cases r.lookupMember? (memberText mark start member) false start <;> rfl

end

/-- **Inherited members.** Where neither the file itself nor one that it includes binds the member of a class, a
look-up answers what is provided by the nearest of the class and its parents that provides something, and
nothing when none does. -/
theorem lookup?_inherited (marks : ∀ c ∈ mark.toList, c = callMark) (isClass : IsClass cls)
    (unbound : r.bindings.lookup? (memberText mark cls member) r.file globalScope index = none)
    (notIncluded : ∀ p ∈ r.includes.of r.path,
      r.bindings.lookup? (memberText mark cls member) p.text globalScope endOfFile = none) :
    (∀ type, r.lookup? index (memberText mark cls member) = some type ↔
      ∃ nearer nearest farther, cls :: r.classes.ancestors cls = nearer ++ nearest :: farther ∧
        (∀ c ∈ nearer, ∀ t, ¬ r.Provides cls mark member c t) ∧ r.Provides cls mark member nearest type) ∧
    (r.lookup? index (memberText mark cls member) = none ↔
      ∀ c ∈ cls :: r.classes.ancestors cls, ∀ t, ¬ r.Provides cls mark member c t) := by
  have provides {c type : String} : r.lookupMember? (memberText mark cls member) false c = some type ↔
      r.Provides cls mark member c type :=
    lookupMember?_eq_some_iff marks isClass unbound
  have nothing {c : String} : r.lookupMember? (memberText mark cls member) false c = none ↔
      ∀ t, ¬ r.Provides cls mark member c t := by
    rw [Option.eq_none_iff_forall_ne_some]
    exact forall_congr' fun t => not_congr provides
  rw [lookup?_memberText marks isClass unbound notIncluded]
  constructor
  · intro type
    rw [List.findSome?_eq_some_iff]
    constructor
    · rintro ⟨nearer, nearest, farther, split, found, passed⟩
      exact ⟨nearer, nearest, farther, split, fun c mem => nothing.1 (passed c mem), provides.1 found⟩
    · rintro ⟨nearer, nearest, farther, split, passed, found⟩
      exact ⟨nearer, nearest, farther, split, provides.2 found, fun c mem => nothing.2 (passed c mem)⟩
  · rw [List.findSome?_eq_none_iff]
    exact forall₂_congr fun c _ => nothing

/-- Three classes that extend each other in a circle. Of the parents of `C`, the nearer one has a binding for the
member `m` in its own file only, and the farther one in the file that is looked at. -/
def circular : Resolver where
  includes := ⟨[(.ofText "/p/main.php", [.ofText "/p/lib.php"])]⟩
  classes := ⟨[⟨"C", .ofText "/p/main.php", 2, some "B", []⟩, ⟨"B", .ofText "/p/b.php", 2, some "A", []⟩,
    ⟨"A", .ofText "/p/main.php", 20, some "C", []⟩]⟩
  path := .ofText "/p/main.php"
  tokens := #[]
  bindings := ⟨[⟨"/p/main.php", globalScope, "*A->m", "Far", 25⟩, ⟨"/p/b.php", globalScope, "*B->m", "Near", 7⟩], []⟩

/-- The nearer parent answers, although the farther one is bound where the look-up starts. -/
theorem lookup?_inherited_circular : circular.lookup? 40 (memberText "*" "C" "m") = some "Near" := by
  have marks : ∀ c ∈ "*".toList, c = callMark := fun c mem => List.mem_singleton.1 mem
  have parents : circular.classes.ancestors "C" = ["B", "A"] := by decide +kernel
  have unbound : circular.bindings.lookup? (memberText "*" "C" "m") circular.file globalScope (40 : Nat) = none := by
    decide +kernel
  have notIncluded : ∀ p ∈ circular.includes.of circular.path,
      circular.bindings.lookup? (memberText "*" "C" "m") p.text globalScope endOfFile = none := by
    decide +kernel
  have nothing : ∀ t, ¬ circular.Provides "C" "*" "m" "C" t := by
    rintro t (⟨other, -⟩ | ⟨-, file, declares, bound⟩)
    · exact other rfl
    · obtain rfl : (.ofText "/p/main.php") = file := Option.some.inj declares
      have unbound : circular.bindings.lookup? (memberText "*" "C" "m") (circular.nameOf (.ofText "/p/main.php"))
          globalScope endOfFile = none := by
        decide +kernel
      rw [unbound] at bound
      cases bound
  refine ((lookup?_inherited marks (by decide +kernel) unbound notIncluded).1 "Near").2
    ⟨["C"], "B", ["A"], congrArg ("C" :: ·) parents, fun c mem t => ?_, ?_⟩
  · rw [List.mem_singleton.1 mem]
    exact nothing t
  · exact .declared (fun _ => by decide +kernel) (.ofText "/p/b.php") (by decide +kernel) (by decide +kernel)

end Resolver

end PhpRename
