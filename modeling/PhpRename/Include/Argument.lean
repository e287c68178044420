import PhpRename.Path.Include
import PhpRename.Text.Ascii
import PhpRename.Token.Cursor

/-!
# Arguments of include statements

An include can be followed when its argument is a concatenation of plain strings, which may be
anchored at the directory of the file by a leading `__DIR__`. Whatever is computed when the program
runs has no argument here. The tokens are read one by one, and all that is kept is the `Reading`.
-/

set_option autoImplicit false

namespace PhpRename

/-- The text between the quotes of a string token and its quote; a double-quoted string with a
variable in it has no fixed text. -/
def stringValue? (text : String) : Option (String × Char) :=
  match text.toList with
  | [] => none
  | quote :: rest =>
    if quote != '\'' && quote != '"' then none
    else if rest.getLast? != some quote then none
    else
      let inner := rest.dropLast
      if quote == '"' && inner.contains '$' then none else some (String.ofList inner, quote)

/-- The argument of an include statement. -/
structure IncludeArgument where
  /-- The indexes of the string tokens, in order. -/
  strings : List Nat
  /-- Whether the strings are anchored at the directory of the file. -/
  anchored : Bool
  deriving DecidableEq, Repr

namespace IncludeArgument

/-- The tokens that make up the argument of the include at `i`: inside the parentheses that follow,
else up to the end of the statement. -/
def region? (ts : Tokens) (i : Nat) : Option (Nat × Nat) := do
  let first ← ts.nextSignificant? i
  if ts.isAt .openParen first then
    let close ← ts.matching? first
    some (first + 1, close)
  else
    let stop ← ts.findFrom? (fun k => k == .semicolon || k == .closeTag) (fun _ => false) first
    some (first, stop)

/-- Whether a token is a string with a fixed text. -/
def isFixed (t : Token) : Bool := t.kind == .stringLit && (stringValue? t.text).isSome

/-- Whether a token is the anchor, in any letter case. -/
def isAnchor (t : Token) : Bool :=
  t.kind == .identifier && Ascii.sameIgnoringCase t.text "__DIR__"

/-- How far an argument has been read. -/
structure Reading where
  /-- The indexes of the strings so far, in order. -/
  strings : List Nat := []
  /-- Whether the anchor stood in front. -/
  anchored : Bool := false
  /-- Whether a string or the anchor is to come next, and not a dot. -/
  wantsOperand : Bool := true
  deriving DecidableEq, Repr

namespace Reading

/-- Reads one more token, passing over white space and comments. The anchor stands in front of all strings. -/
def next? (r : Reading) (i : Nat) (t : Token) : Option Reading :=
  if t.kind.isTrivia then some r
  else if isFixed t && r.wantsOperand then some { r with strings := r.strings ++ [i], wantsOperand := false }
  else if isAnchor t && r.wantsOperand && r.strings.isEmpty && !r.anchored then
    some { r with anchored := true, wantsOperand := false }
  else if t.kind == .concat && !r.wantsOperand then some { r with wantsOperand := true }
  else none

/-- What has been read, unless it has no string or ends with a dot. -/
def argument? (r : Reading) : Option IncludeArgument :=
  if r.strings.isEmpty || r.wantsOperand then none else some ⟨r.strings, r.anchored⟩

/-- What the reading comes to behind some more tokens. -/
def run? (r : Reading) (tokens : List (Nat × Token)) : Option IncludeArgument :=
  (tokens.foldlM (fun r p => next? r p.1 p.2) r).bind argument?

end Reading

/-- The argument of the include keyword at `i`. -/
def at? (ts : Tokens) (i : Nat) : Option IncludeArgument :=
  if ts.kindSatisfies (·.isInclude) i then do
    let (start, stop) ← region? ts i
    Reading.run? {} (ts.slice start stop)
  else none

/-- The path text: the texts of all strings, one after the other. -/
def literal? (a : IncludeArgument) (ts : Tokens) : Option String :=
  (a.strings.mapM fun i => (stringValue? (ts.textAt i)).map (·.1)).map String.join

/-- Whether the argument is one plain string. -/
def isSingle (a : IncludeArgument) : Bool := a.strings.length == 1 && !a.anchored

/-- The token of the first string. -/
def first? (a : IncludeArgument) (ts : Tokens) : Option Token := a.strings.head?.bind (ts[·]?)

/-- The token of the last string. -/
def last? (a : IncludeArgument) (ts : Tokens) : Option Token := a.strings.getLast?.bind (ts[·]?)

/-- The quote of the first string. -/
def quote (a : IncludeArgument) (ts : Tokens) : Char :=
  (a.strings.head?.bind fun i => (ts.textAt i).toList.head?).getD '\''

end IncludeArgument

end PhpRename
