import PhpRename.Text.Ascii
import PhpRename.Text.Split

/-!
# Names

Class names are compared without their namespace. A new name has to be a label of the language,
and a class must not take a reserved word; `Fault.message` words each refusal.
-/

set_option autoImplicit false

namespace PhpRename.Name

/-- A name without its namespace: what follows the last backslash. -/
def short (name : String) : String := String.ofList (Text.afterLast '\\' name.toList)

/-- Whether a character may start a label: a letter, an underscore or any character outside
ASCII. -/
def startsLabel (c : Char) : Bool := c.isAlpha || c == '_' || 0x80 ≤ c.toNat

/-- Whether a character may stand in a label. -/
def inLabel (c : Char) : Bool := startsLabel c || c.isDigit

/-- Words that cannot name a class. -/
def reservedWords : List String :=
  ["abstract", "and", "array", "as", "break", "callable", "case", "catch", "class", "clone",
    "const", "continue", "declare", "default", "do", "echo", "else", "elseif", "empty",
    "enddeclare", "endfor", "endforeach", "endif", "endswitch", "endwhile", "enum", "eval",
    "exit", "extends", "final", "finally", "fn", "for", "foreach", "function", "global", "goto",
    "if", "implements", "include", "include_once", "instanceof", "insteadof", "interface",
    "isset", "list", "match", "namespace", "new", "or", "print", "private", "protected",
    "public", "readonly", "require", "require_once", "return", "static", "switch", "throw",
    "trait", "try", "unset", "use", "var", "while", "xor", "yield"]

/-- Names of built-in types and class references. -/
def reservedTypes : List String :=
  ["bool", "false", "float", "int", "iterable", "mixed", "never", "null", "object", "parent",
    "self", "string", "true", "void"]

/-- Whether a name is reserved, in any letter case. -/
def isReserved (name : String) : Bool :=
  (reservedWords ++ reservedTypes).any (Ascii.sameIgnoringCase · name)

/-- Why a name is refused. -/
inductive Reason where
  | empty
  | badStart
  | badCharacter (c : Char)
  | reservedClass
  | classConstant
  deriving DecidableEq, Repr

/-- A refused name. -/
structure Fault where
  name : String
  reason : Reason
  deriving DecidableEq, Repr

/-- The wording of a reason. -/
def Reason.message : Reason → String
  | empty => "name cannot be empty"
  | badStart => "must start with letter or underscore"
  | badCharacter c => "invalid character: '" ++ String.singleton c ++ "'"
  | reservedClass => "cannot use a reserved word as a class name"
  | classConstant => "'class' is reserved for ::class"

/-- The wording of a refusal. -/
def Fault.message (f : Fault) : String := "invalid name '" ++ f.name ++ "': " ++ f.reason.message

/-- What keeps a name from being a label. -/
def labelFault? (name : String) : Option Reason :=
  match name.toList with
  | [] => some .empty
  | c :: rest =>
    if !startsLabel c then some .badStart
    else (rest.find? (!inLabel ·)).map .badCharacter

/-- What keeps a name from naming a class. -/
def classFault? (name : String) : Option Reason :=
  labelFault? name <|> if isReserved name then some .reservedClass else none

/-- What keeps a name from naming a method; reserved words may. -/
def methodFault? (name : String) : Option Reason :=
  labelFault? name <|> if Ascii.sameIgnoringCase name "class" then some .classConstant else none

/-- Accepts a name that has no fault. -/
def accept (fault? : String → Option Reason) (name : String) : Except Fault Unit :=
  match fault? name with
  | none => .ok ()
  | some reason => .error ⟨name, reason⟩

end PhpRename.Name
