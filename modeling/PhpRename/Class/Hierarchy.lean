import PhpRename.Name.Basic
import PhpRename.Path.Basic
import PhpRename.Token.Expression

/-!
# The class hierarchy

Where each class, interface and trait is declared, and what it extends and implements. Names are
kept without their namespace, and of two declarations of a name the first one counts.

Walks up the hierarchy end on cycles, because each declared class is entered once.
-/

set_option autoImplicit false

namespace PhpRename

/-- A declared class, interface or trait. -/
structure ClassInfo where
  name : String
  /-- The file of the declaration. -/
  file : Path
  /-- The index of the declaring keyword. -/
  position : Nat
  /-- The class that it extends. -/
  parent : Option String
  /-- The interfaces that it implements, or that an interface extends. -/
  interfaces : List String
  deriving DecidableEq, Repr

/-- What a class extends or implements directly. -/
def ClassInfo.above (c : ClassInfo) : List String := c.parent.toList ++ c.interfaces

/-- The declared classes, in the order of their declarations. -/
structure Hierarchy where
  classes : List ClassInfo := []
  deriving DecidableEq, Repr

namespace Hierarchy

/-- Kinds that declare a class, an interface or a trait. -/
def declares : TokenKind → Bool
  | .kwClass | .kwInterface | .kwTrait => true
  | _ => false

/-- The names after `extends` and after `implements`, read from the significant tokens of a
declaration's header; `section?` tells which of the two words came last. -/
def headerNames (section? : Option Bool) : List (Nat × Token) → List String × List String
  | [] => ([], [])
  | (_, t) :: rest =>
    match t.kind with
    | .kwExtends => headerNames (some false) rest
    | .kwImplements => headerNames (some true) rest
    | .identifier =>
      let (parents, interfaces) := headerNames section? rest
      match section? with
      | some false => (Name.short t.text :: parents, interfaces)
      | some true => (parents, Name.short t.text :: interfaces)
      | none => (parents, interfaces)
    | _ => headerNames section? rest

/-- The class that a keyword token declares. -/
def declaration? (path : Path) (ts : Tokens) (i : Nat) (kind : TokenKind) : Option ClassInfo := do
  let name ← ts.declaredName? i
  let header := ts.significantWhile (fun k => k != .openBrace && k != .semicolon) (i + 1)
  let (parents, interfaces) := headerNames none header
  if kind == .kwInterface then
    some ⟨Name.short name, path, i, none, parents ++ interfaces⟩
  else some ⟨Name.short name, path, i, parents.head?, interfaces⟩

/-- The declared class of exactly this name. -/
def declared? (h : Hierarchy) (name : String) : Option ClassInfo := h.classes.find? (·.name == name)

/-- Takes a class in unless its name is declared already. -/
def insert (h : Hierarchy) (c : ClassInfo) : Hierarchy :=
  if (h.declared? c.name).isSome then h else ⟨h.classes ++ [c]⟩

/-- Takes the classes of a file in. -/
def recordFile (h : Hierarchy) (path : Path) (ts : Tokens) : Hierarchy :=
  ts.toList.zipIdx.foldl (fun h (t, i) =>
    if declares t.kind then
      match declaration? path ts i t.kind with
      | some c => h.insert c
      | none => h
    else h) h

/-- The declared class of a name, whatever its namespace. -/
def get? (h : Hierarchy) (name : String) : Option ClassInfo := h.declared? (Name.short name)

/-- The class that a class extends. -/
def parent? (h : Hierarchy) (name : String) : Option String := (h.get? name).bind (·.parent)

/-- The file that declares a class. -/
def file? (h : Hierarchy) (name : String) : Option Path := (h.get? name).map (·.file)

/-- The number of declared classes that are not among the given names. -/
def unseen (h : Hierarchy) (seen : List String) : Nat :=
  (h.classes.filter fun c => !seen.contains c.name).length

theorem countP_unseen_cons_le (l : List ClassInfo) (seen : List String) (name : String) :
    l.countP (fun c => !(name :: seen).contains c.name) ≤ l.countP (fun c => !seen.contains c.name) := by
  apply List.countP_mono_left
  intro c _ hc
  simp only [List.contains_cons, Bool.not_or, Bool.and_eq_true] at hc
  exact hc.2

theorem unseen_cons_le (h : Hierarchy) (seen : List String) (name : String) :
    h.unseen (name :: seen) ≤ h.unseen seen := by
  unfold unseen
  rw [← List.countP_eq_length_filter, ← List.countP_eq_length_filter]
  exact countP_unseen_cons_le h.classes seen name

theorem unseen_cons_lt {h : Hierarchy} {seen : List String} {name : String} {c : ClassInfo}
    (hd : h.declared? name = some c) (hs : ¬ seen.contains name = true) :
    h.unseen (name :: seen) < h.unseen seen := by
  unfold unseen
  rw [← List.countP_eq_length_filter, ← List.countP_eq_length_filter]
  have hc : c ∈ h.classes := List.mem_of_find?_eq_some hd
  have hn : c.name = name := by simpa using List.find?_some hd
  obtain ⟨pre, post, hsplit⟩ := List.append_of_mem hc
  rw [hsplit, List.countP_append, List.countP_append, List.countP_cons_of_neg (by simp [hn]),
    List.countP_cons_of_pos (by rw [hn]; simpa using hs)]
  have hpre := countP_unseen_cons_le pre seen name
  have hpost := countP_unseen_cons_le post seen name
  omega

/-- The parents of a class, nearest first, until one of them is among the names seen. -/
def parentsFrom (h : Hierarchy) (seen : List String) (name : String) : List String :=
  match _hd : h.declared? name with
  | none => []
  | some c =>
    match c.parent with
    | none => []
    | some parent =>
      if _hs : seen.contains parent then [] else parent :: parentsFrom h (parent :: seen) parent
termination_by 2 * h.unseen seen + (if (h.declared? name).isSome then 1 else 0)
decreasing_by
  simp only [_hd, Option.isSome_some, if_true]
  cases hp : h.declared? parent with
  | none => simp; have := h.unseen_cons_le seen parent; omega
  | some d => simp; have := unseen_cons_lt hp _hs; omega

/-- The parents of a class, nearest first; a cycle is entered once. -/
def ancestors (h : Hierarchy) (name : String) : List String :=
  h.parentsFrom [Name.short name] (Name.short name)

/-- Whether going up from one of the queued names reaches a class, entering no class twice. -/
def reaches (h : Hierarchy) (target : String) (seen queue : List String) : Bool :=
  match queue with
  | [] => false
  | name :: rest =>
    if Ascii.sameIgnoringCase name target then true
    else if _hs : seen.contains name then reaches h target seen rest
    else
      match _hd : h.declared? name with
      | none => reaches h target seen rest
      | some c => reaches h target (name :: seen) (rest ++ c.above)
termination_by (h.unseen seen, queue.length)
decreasing_by
  · exact Prod.Lex.right _ (by simp)
  · exact Prod.Lex.right _ (by simp)
  · exact Prod.Lex.left _ _ (unseen_cons_lt _hd _hs)

/-- Whether a class is another, up to letter case, or inherits from it. -/
def isSubclassOf (h : Hierarchy) (name ancestor : String) : Bool :=
  h.reaches (Name.short ancestor) [] [Name.short name]

end Hierarchy

end PhpRename
