import PhpRename.TypeExpr.Basic

/-!
# Bindings of variables to types

What has been learned about the types of variables: at most one binding for each site, a position
in a file. Scope 0 is the global scope of a file, which also holds class-qualified names; any other
scope is the token index of its owner.

Recording a binding also rewrites the names that are chains rooted at the bound name, so that a
look-up matches whole names (`Binding.rebase`).
-/

set_option autoImplicit false

namespace PhpRename

/-- The scope of a file's global names and of class-qualified names. -/
def globalScope : Int := 0

/-- A position after every token of a file. -/
def endOfFile : Int := 9223372036854775807

/-- A name with its type at a site. -/
structure Binding where
  file : String
  scope : Int
  name : String
  type : String
  position : Int
  deriving DecidableEq, Repr

/-- A name that stands for the global one inside a scope, and the site that says so. -/
structure GlobalMark where
  file : String
  scope : Int
  name : String
  position : Int
  deriving DecidableEq, Repr

/-- The bindings and global marks of a run. -/
structure Bindings where
  entries : List Binding := []
  globals : List GlobalMark := []
  deriving DecidableEq, Repr

namespace Binding

/-- Whether a binding sits at a site. -/
def isAt (b : Binding) (file : String) (position : Int) : Bool :=
  b.position == position && b.file == file

/-- The characters of a name up to a NUL, which ends a name for rewriting. -/
def visible (name : String) : List Char := name.toList.takeWhile (· != '\x00')

/-- What follows `root` in a name that is a chain rooted at it: the separator and at least one more
character. -/
def chainTail? (root name : String) : Option (List Char) :=
  match Text.after? (root ++ TypeExpr.separator).toList (visible name) with
  | some (c :: rest) => some (TypeExpr.separator.toList ++ c :: rest)
  | _ => none

/-- The scope of a chain that has been rewritten to start with a type: names that do not start with
a variable live in the global scope. -/
def scopeOfType (type : String) (scope : Int) : Int :=
  if TypeExpr.isVariable (TypeExpr.unmarked type) then scope else globalScope

/-- A binding after `root` has been given a type in a scope of a file: a chain rooted at it starts
with the type instead. -/
def rebase (root type file : String) (scope : Int) (b : Binding) : Binding :=
  if b.scope == scope && b.file == file then
    match chainTail? root b.name with
    | some tail => { b with name := type ++ String.ofList tail, scope := scopeOfType type scope }
    | none => b
  else b

end Binding

namespace Bindings

/-- Binds a name at a site, in place of what was bound there, and rewrites the chains rooted at
it. -/
def record (s : Bindings) (b : Binding) : Bindings :=
  let others := s.entries.filter (!·.isAt b.file b.position)
  { s with entries := (b :: others).map (Binding.rebase b.name b.type b.file b.scope) }

/-- Marks a name as global in a scope; a site that holds a mark keeps it. -/
def markGlobal (s : Bindings) (m : GlobalMark) : Bindings :=
  if s.globals.any fun g => g.position == m.position && g.file == m.file then s
  else { s with globals := m :: s.globals }

/-- The type bound at a site. -/
def typeAt? (s : Bindings) (file : String) (position : Int) : Option String :=
  (s.entries.find? (·.isAt file position)).map (·.type)

/-- The bindings of a name in a scope of a file. -/
def ofName (s : Bindings) (name file : String) (scope : Int) : List Binding :=
  s.entries.filter fun b => b.scope == scope && b.name == name && b.file == file

/-- The entry that comes last by position. -/
def latest? : List Binding → Option Binding
  | [] => none
  | b :: rest =>
    match latest? rest with
    | some c => if b.position < c.position then some c else some b
    | none => some b

/-- The entry that comes first by position. -/
def earliest? : List Binding → Option Binding
  | [] => none
  | b :: rest =>
    match earliest? rest with
    | some c => if c.position < b.position then some c else some b
    | none => some b

/-- The type of a name as seen from a position: its latest binding up to there, else its earliest
one after. -/
def lookup? (s : Bindings) (name file : String) (scope position : Int) : Option String :=
  let all := s.ofName name file scope
  ((latest? (all.filter (·.position ≤ position))).or
    (earliest? (all.filter (position < ·.position)))).map (·.type)

/-- Whether a name is marked as global in a scope. -/
def isGlobal (s : Bindings) (name file : String) (scope : Int) : Bool :=
  s.globals.any fun g => g.scope == scope && g.name == name && g.file == file

/-- The number of bindings. -/
def count (s : Bindings) : Nat := s.entries.length

/-- The bindings of a file, by position. -/
def ofFile (s : Bindings) (file : String) : List Binding :=
  (s.entries.filter (·.file == file)).mergeSort fun a b => a.position ≤ b.position

end Bindings

/-- Bindings that may not have been set up yet. -/
abbrev BindingsHandle := Option Bindings

/-- Why bindings cannot be used. -/
inductive BindingsError where
  | notSetUp
  deriving DecidableEq, Repr

/-- The wording of a refusal. -/
def BindingsError.message : BindingsError → String
  | notSetUp => "variable type store used before initialization"

/-- The bindings of a handle, refused before they are set up. -/
def BindingsHandle.get (h : BindingsHandle) : Except BindingsError Bindings :=
  match h with
  | some s => .ok s
  | none => .error .notSetUp

end PhpRename
