import PhpRename.Text.Reader

/-!
# Text in configuration documents

Blanks, line ends and comments, and the four ways to write a text: between single or double quotes,
on one line or, with three quotes, on several. Escapes count between double quotes only.
-/

set_option autoImplicit false

namespace PhpRename.Toml

open Reader

/-- Whether a character may stand in a line of text: a tab, or anything that is no control
character. -/
def isPlain (c : Char) : Bool := c == '\t' || (0x20 ≤ c.toNat && c.toNat != 0x7f)

/-- Whether a character is a space or a tab. -/
def isBlank (c : Char) : Bool := c == ' ' || c == '\t'

/-- Whether a character is a hexadecimal digit. -/
def isHexDigit (c : Char) : Bool := c.isDigit || ('a' ≤ c && c ≤ 'f') || ('A' ≤ c && c ≤ 'F')

/-- The value of a digit. -/
def digitValue (c : Char) : Nat :=
  if c.isDigit then c.toNat - '0'.toNat
  else if 'a' ≤ c then c.toNat - 'a'.toNat + 10
  else c.toNat - 'A'.toNat + 10

/-- The number that digits spell to a base. -/
def numberOf (base : Nat) (digits : List Char) : Nat :=
  digits.foldl (fun n c => n * base + digitValue c) 0

/-- Reads spaces and tabs. -/
def blanks : Reader Unit := do let _ ← charsThat isBlank

/-- Reads the end of a line. -/
def newline : Reader Unit := char '\n' <|> do char '\r'; char '\n'

/-- Reads a comment up to the end of its line. -/
def comment : Reader Unit := do
  char '#'
  let _ ← charsThat isPlain

/-- Reads the rest of a line, which may hold a comment only, and its end. -/
def lineRest : Reader Unit := do
  blanks
  let _ ← optional? comment
  newline <|> atEnd

/-- Reads blanks, line ends and comments. -/
def spacing : Reader Unit := do
  let _ ← many ((do let _ ← someCharsThat isBlank) <|> newline <|> do comment; newline)

/-- The character of a code point, none for those that stand for no character. -/
def charOf? (code : Nat) : Option Char :=
  if code.isValidChar then some (Char.ofNat code) else none

/-- Reads the digits of a code point. -/
def codePoint (digits : Nat) : Reader Char := do
  let ds ← exactly isHexDigit digits
  match charOf? (numberOf 16 ds) with
  | some c => return c
  | none => failure

/-- Reads an escape. -/
def escape : Reader (List Char) := do
  char '\\'
  let c ← charThat fun _ => true
  match c with
  | 'b' => return ['\x08']
  | 't' => return ['\t']
  | 'n' => return ['\n']
  | 'f' => return ['\x0c']
  | 'r' => return ['\r']
  | '"' => return ['"']
  | '\\' => return ['\\']
  | 'u' => return [← codePoint 4]
  | 'U' => return [← codePoint 8]
  | _ => failure

/-- Reads a text between double quotes. -/
def basicText : Reader (List Char) := do
  char '"'
  let pieces ← many (someCharsThat (fun c => isPlain c && c != '"' && c != '\\') <|> escape)
  char '"'
  return pieces.flatten

/-- Reads a text between single quotes. -/
def literalText : Reader (List Char) := do
  char '\''
  let cs ← charsThat fun c => isPlain c && c != '\''
  char '\''
  return cs

/-- Reads an escaped line end with the blanks and line ends after it. -/
def escapedNewline : Reader (List Char) := do
  char '\\'
  blanks
  newline
  let _ ← many ((do let _ ← someCharsThat isBlank) <|> newline)
  return []

/-- Reads one or two quotes that another character follows. -/
def innerQuotes (quote : Char) : Reader (List Char) := do
  let quotes ← someCharsThat (· == quote)
  require (quotes.length ≤ 2 && (← peek?).isSome)
  return quotes

/-- Reads the three quotes at the end of a text, with up to two quotes that belong to the text. -/
def closingQuotes (quote : Char) : Reader (List Char) := fun cs =>
  let quotes := (cs.take 5).takeWhile (· == quote)
  if 3 ≤ quotes.length then some (quotes.drop 3, cs.drop quotes.length) else none

/-- Reads a text of several lines from pieces; a line end right after the opening quotes does not
count. -/
def longText (quote : Char) (piece : Reader (List Char)) : Reader (List Char) := do
  text [quote, quote, quote]
  let _ ← optional? newline
  let pieces ← many (piece <|> (do newline; return ['\n']) <|> innerQuotes quote)
  let last ← closingQuotes quote
  return pieces.flatten ++ last

/-- Reads a text of several lines between double quotes. -/
def longBasicText : Reader (List Char) :=
  longText '"' (someCharsThat (fun c => isPlain c && c != '"' && c != '\\') <|> escapedNewline <|> escape)

/-- Reads a text of several lines between single quotes. -/
def longLiteralText : Reader (List Char) :=
  longText '\'' (someCharsThat fun c => isPlain c && c != '\'')

/-- Reads a text. -/
def quotedText : Reader String :=
  String.ofList <$> (longBasicText <|> basicText <|> longLiteralText <|> literalText)

/-- Whether a character may stand in a key without quotes. -/
def isBareKey (c : Char) : Bool := c.isAlphanum || c == '-' || c == '_'

/-- Reads a key. -/
def simpleKey : Reader String :=
  String.ofList <$> (basicText <|> literalText <|> someCharsThat isBareKey)

/-- The longest path of dotted keys. -/
def maxKeyLength : Nat := 79

/-- Reads dotted keys: those on the way, and the last one. -/
def dottedKey : Reader (List String × String) := do
  let keys ← separated (do blanks; let key ← simpleKey; blanks; return key) (char '.')
  require (keys.length ≤ maxKeyLength)
  match keys.getLast? with
  | some key => return (keys.dropLast, key)
  | none => failure

end PhpRename.Toml
