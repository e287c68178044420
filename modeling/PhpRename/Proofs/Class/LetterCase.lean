import PhpRename.Proofs.Class.Inheritance

/-!
# Subclasses and letter case

The search for an ancestor compares names in any letter case, but goes up from a class only by the spelling
that its declaration has. So a subclass of a subclass may be missed where a class is spelled in two ways:
`isSubclassOf_trans_iff` says when it is found.
-/

set_option autoImplicit false

namespace PhpRename.Hierarchy

open Name (short)
open Ascii (sameIgnoringCase sameIgnoringCase_iff)

variable {h : Hierarchy} {a b c target : String}

/-- The way to a class may be put together where its two parts meet in one spelling. -/
theorem Inherits.leadsTo (inherits : h.Inherits a b) (leads : h.LeadsTo b target) : h.LeadsTo a target := by
  obtain ⟨c, rest, wanted⟩ := leads
  exact ⟨c, inherits.trans rest, wanted⟩

/-- Only the letters of the wanted class count, not their case. -/
theorem LeadsTo.congr (leads : h.LeadsTo a b) (same : sameIgnoringCase b c = true) : h.LeadsTo a c := by
  obtain ⟨d, inherits, wanted⟩ := leads
  rw [sameIgnoringCase_iff] at wanted same
  exact ⟨d, inherits, (sameIgnoringCase_iff d c).2 (wanted.trans same)⟩

/-- Whichever way the name of a class is spelled, it leads to what stands above the class. -/
def SpelledAlike (h : Hierarchy) : Prop :=
  ∀ name spelling s, sameIgnoringCase (short spelling) (short name) = true → h.Above name s →
    h.isSubclassOf spelling s = true

/-- Where spelling does not matter, another spelling of a class leads wherever the class does. The induction
goes up the way of the class; the other spelling joins it again at each step, in a spelling of its own. -/
theorem SpelledAlike.leadsTo (alike : h.SpelledAlike) (plain : h.Plain) (whole : short a = a) (leads : h.LeadsTo a target)
    {spelling : String} (single : short spelling = spelling) (same : sameIgnoringCase spelling a = true) :
    h.LeadsTo spelling target := by
  obtain ⟨c, inherits, wanted⟩ := leads
  induction inherits using Relation.ReflTransGen.head_induction_on generalizing spelling with
  | refl => exact LeadsTo.congr ⟨spelling, .refl, same⟩ wanted
  | @head a s up rest ih =>
    have top : short s = s := up.short_eq plain
    have joins : h.LeadsTo spelling s := by
      have found := alike a spelling s (by rwa [single, whole]) up
      rwa [isSubclassOf_iff plain, single, top] at found
    obtain ⟨s', inherits, same'⟩ := joins
    exact inherits.leadsTo (ih top (inherits.short_eq plain single) same')

/-- Subclasses of subclasses are subclasses for all names just when spelling does not matter. -/
theorem trans_iff_spelledAlike (plain : h.Plain) :
    (∀ a b c, h.isSubclassOf a b = true → h.isSubclassOf b c = true → h.isSubclassOf a c = true) ↔
      h.SpelledAlike := by
  constructor
  · intro trans name spelling s same up
    refine trans spelling name s ?_ ?_
    · exact (isSubclassOf_iff plain ..).2 ⟨short spelling, .refl, same⟩
    · refine (isSubclassOf_iff plain ..).2 ⟨s, .single ?_, ?_⟩
      · rwa [Above, get?_short]
      · rw [up.short_eq plain]
        exact Ascii.sameIgnoringCase_refl s
  · intro alike a b c first second
    obtain ⟨b', inherits, same⟩ := (isSubclassOf_iff plain a b).1 first
    have leads := (isSubclassOf_iff plain b c).1 second
    have single : short b' = b' := inherits.short_eq plain (Name.short_short a)
    exact (isSubclassOf_iff plain a c).2 (inherits.leadsTo (alike.leadsTo plain (Name.short_short b) leads single same))

/-- **Subclasses of subclasses.** In the hierarchy of any files, a class is a subclass of all that another one is
a subclass of when it inherits from that one by its very spelling. This holds for all names, in any letter
case, just when each other spelling of a declared class also leads to all that the class extends and
implements. -/
theorem isSubclassOf_trans_iff (files : List (Path × Tokens)) :
    let h := ofFiles files
    (∀ a b c, h.Inherits (short a) (short b) → h.isSubclassOf b c = true → h.isSubclassOf a c = true) ∧
    ((∀ a b c, h.isSubclassOf a b = true → h.isSubclassOf b c = true → h.isSubclassOf a c = true) ↔
      h.SpelledAlike) := by
  intro h
  have plain : h.Plain := plain_ofFiles files
  refine ⟨fun a b c inherits second => ?_, trans_iff_spelledAlike plain⟩
  exact (isSubclassOf_iff plain a c).2 (inherits.leadsTo ((isSubclassOf_iff plain b c).1 second))

/-- A step along the circle, and from there to what an interface extends. -/
theorem isSubclassOf_trans_circle :
    let h := ofFiles circle
    h.Inherits (short "C") (short "\\N\\A") ∧ h.isSubclassOf "\\N\\A" "j" = true ∧ h.isSubclassOf "C" "j" = true := by
  intro h
  have parent : h.parent? (short "C") = some (short "\\N\\A") := by
    rw [show h = _ from ofFiles_circle]
    decide +kernel
  have found : h.reachesIn? (short "j") (h.links + 2) [] [short "\\N\\A"] = some true := by
    rw [show h = _ from ofFiles_circle]
    decide +kernel
  have inherits : h.Inherits (short "C") (short "\\N\\A") := .single (above_of_parent? parent)
  have second : h.isSubclassOf "\\N\\A" "j" = true := isSubclassOf_of_reachesIn? found
  exact ⟨inherits, second, (isSubclassOf_trans_iff circle).1 _ _ _ inherits second⟩

/-- A class that extends another one by a spelling that its declaration does not have. -/
def spelledTwice : List (Path × Tokens) :=
  [(.ofText "/p/a.php", Lexer.tokenize (Utf8.encode "<?php class A extends b {} class B extends C {}"))]

/-- It is a subclass of that one, but not of what that one extends. -/
theorem isSubclassOf_not_trans :
    let h := ofFiles spelledTwice
    h.isSubclassOf "A" "B" = true ∧ h.isSubclassOf "B" "C" = true ∧ h.isSubclassOf "A" "C" = false := by
  intro h
  have known : h = ⟨[⟨"A", .ofText "/p/a.php", 2, some "b", []⟩, ⟨"B", .ofText "/p/a.php", 13, some "C", []⟩]⟩ := by decide +kernel
  refine ⟨isSubclassOf_of_reachesIn? ?_, isSubclassOf_of_reachesIn? ?_, isSubclassOf_of_reachesIn? ?_⟩ <;> rw [known] <;>
    decide +kernel

end PhpRename.Hierarchy
