import PhpRename.Text.Split

/-!
# Type expressions

What is known of the type of a variable: a class name, a chain of member accesses that waits to be
resolved, or the result of a call. A type expression is written as text, with `->` between the
links of a chain and a leading `*` for "the result of calling"; bindings keep the text, and
`TypeExpr` is its structure.

`TypeExpr.specificity` counts the steps that are left until a plain class name is reached.
-/

set_option autoImplicit false

namespace PhpRename

/-- The structure of a type text. -/
inductive TypeExpr where
  /-- A class name, fully resolved. -/
  | named (name : String)
  /-- A variable or class followed by member accesses that are not resolved yet. -/
  | chain (base : String) (members : List String)
  /-- The result of calling a function or method. -/
  | call (callee : TypeExpr)
  deriving DecidableEq, Repr

namespace TypeExpr

/-- The mark of a call. -/
def callMark : Char := '*'

/-- The text between the links of a chain. -/
def separator : String := "->"

/-- A text with the mark of a call in front. -/
def marked (text : String) : String := "*" ++ text

/-- The links of a chain: the first one and those after a separator. -/
def links : List Char → List Char × List (List Char)
  | [] => ([], [])
  | '-' :: '>' :: rest => ([], (links rest).1 :: (links rest).2)
  | c :: rest => (c :: (links rest).1, (links rest).2)

/-- A text without its leading call marks. -/
def unmarked (text : String) : String := String.ofList (text.toList.dropWhile (· == callMark))

/-- The leading call marks of a text. -/
def marks (text : String) : String := String.ofList (text.toList.takeWhile (· == callMark))

/-- Whether a text starts with a variable. -/
def isVariable (text : String) : Bool := text.toList.head? == some '$'

/-- The structure of a type text given as characters; none when nothing follows the call marks. -/
def parseChars? : List Char → Option TypeExpr
  | [] => none
  | c :: rest =>
    if c == callMark then (parseChars? rest).map call
    else
      match links (c :: rest) with
      | (base, []) => if c == '$' then some (chain (String.ofList base) []) else some (named (String.ofList base))
      | (base, members) => some (chain (String.ofList base) (members.map String.ofList))

/-- The structure of a type text; none when it has only call marks. -/
def parse? (text : String) : Option TypeExpr := parseChars? text.toList

/-- The text of a type expression. -/
def render : TypeExpr → String
  | named name => name
  | chain base members => members.foldl (fun text m => text ++ separator ++ m) base
  | call callee => marked callee.render

/-- Whether the expression starts with a variable. -/
def isVariableRooted : TypeExpr → Bool
  | named _ => false
  | chain base _ => isVariable base
  | call callee => callee.isVariableRooted

/-- How far the expression is from a plain class name: one for each member access, and one for a
variable or a call at its root. -/
def specificity : TypeExpr → Nat
  | named _ => 0
  | chain base members => members.length + if isVariable base then 1 else 0
  | call callee => callee.specificity - (if callee.isVariableRooted then 1 else 0) + 1

/-- The specificity of a type text; none when it has no structure, which counts as farthest. -/
def specificityOf (text : String) : Option Nat := (parse? text).map specificity

/-- Whether a specificity is as near to a class name as another, or nearer. -/
def atLeastAsSpecific : Option Nat → Option Nat → Bool
  | _, none => true
  | none, some _ => false
  | some a, some b => a ≤ b

/-- The first link of a type text without its call marks. -/
def rootOf (text : String) : String := String.ofList (links (unmarked text).toList).1

/-- What follows the first link of a type text. -/
def afterRoot (text : String) : String :=
  String.ofList ((unmarked text).toList.drop (rootOf text).length)

/-- A type text with its first link replaced. -/
def withRoot (text root : String) : String := marks text ++ root ++ afterRoot text

end TypeExpr

end PhpRename
