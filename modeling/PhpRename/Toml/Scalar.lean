import PhpRename.Toml.Text
import PhpRename.Toml.Value

/-!
# Numbers, dates and truth values in configuration documents

Integers fit 64 bits; a number with fraction or exponent must not be too large for a double. Dates are
checked against the calendar.
-/

set_option autoImplicit false

namespace PhpRename.Toml

open Reader

/-- Reads a sign. -/
def sign? : Reader (Option Char) := optional? (charThat fun c => c == '+' || c == '-')

/-- Reads digits, which single underscores may divide; the underscores are left out. -/
def digitsOf (isDigit : Char → Bool) : Reader (List Char) := do
  let first ← charThat isDigit
  let rest ← many (charThat isDigit <|> do char '_'; charThat isDigit)
  return first :: rest

/-- Reads the digits of a decimal integer: a lone zero, or no zero at the start. -/
def decimalDigits : Reader (List Char) := do
  match ← peek? with
  | some '0' => do char '0'; return ['0']
  | _ => digitsOf Char.isDigit

/-- The integer of a sign and a magnitude. -/
def signed (sign : Option Char) (magnitude : Nat) : Int :=
  if sign == some '-' then -(magnitude : Int) else magnitude

/-- Whether an integer fits 64 bits. -/
def fits (n : Int) : Bool := Int64.minValue.toInt ≤ n && n ≤ Int64.maxValue.toInt

/-- Reads an integer after the mark of its base. -/
def basedInteger (mark : Char) (base : Nat) (isDigit : Char → Bool) : Reader Int := do
  text ['0', mark]
  return (numberOf base (← digitsOf isDigit) : Int)

/-- Reads an integer. -/
def integer : Reader Value := do
  let n ← basedInteger 'x' 16 isHexDigit
    <|> basedInteger 'o' 8 (fun c => '0' ≤ c && c ≤ '7')
    <|> basedInteger 'b' 2 (fun c => c == '0' || c == '1')
    <|> (do let sign ← sign?; return signed sign (numberOf 10 (← decimalDigits)))
  require (fits n)
  return .integer n

/-- Whether the number with these digits times a power of ten is too large for a double: it rounds to
`2 ^ 1024` or beyond. -/
def overflows (digits : Nat) (power : Int) : Bool :=
  let size := (Nat.toDigits 10 digits).length
  let bound := Nat.pow 2 1024 - Nat.pow 2 970
  if digits == 0 then false
  else if 309 < (size : Int) + power then true
  else if (size : Int) + power < 309 then false
  else if 0 ≤ power then bound ≤ digits * Nat.pow 10 power.toNat
  else bound * Nat.pow 10 (-power).toNat ≤ digits

/-- Reads an exponent. -/
def exponent : Reader Int := do
  let _ ← charThat fun c => c == 'e' || c == 'E'
  let sign ← sign?
  return signed sign (numberOf 10 (← digitsOf Char.isDigit))

/-- Reads a number with fraction or exponent; only one below zero may be too large. -/
def decimal : Reader Unit := do
  let sign ← sign?
  let whole ← decimalDigits
  let fraction ← optional? (do char '.'; digitsOf Char.isDigit)
  let power ← optional? exponent
  require (fraction.isSome || power.isSome)
  let places := fraction.getD []
  require (sign == some '-' ||
    !overflows (numberOf 10 (whole ++ places)) (power.getD 0 - (places.length : Int)))

/-- Reads an infinity or a value that is no number. -/
def special : Reader Unit := do
  let _ ← sign?
  text "inf".toList <|> text "nan".toList

/-- Reads a number with fraction or exponent, or one of the special ones. -/
def float : Reader Value := (.float ∘ String.ofList) <$> taken (decimal <|> special)

/-- Reads a number of a given count of digits that is in a range. -/
def fixed (count lo hi : Nat) : Reader Nat := do
  let n := numberOf 10 (← exactly Char.isDigit count)
  require (lo ≤ n && n ≤ hi)
  return n

/-- The number of days of a month. -/
def daysOf (year month : Nat) : Nat :=
  if month == 2 then
    if year % 4 == 0 && (year % 100 != 0 || year % 400 == 0) then 29 else 28
  else if month == 4 || month == 6 || month == 9 || month == 11 then 30
  else 31

/-- Reads a date. -/
def date : Reader Unit := do
  let year ← fixed 4 0 9999
  char '-'
  let month ← fixed 2 1 12
  char '-'
  let _ ← fixed 2 1 (daysOf year month)

/-- Reads a time of day. -/
def time : Reader Unit := do
  let _ ← fixed 2 0 23
  char ':'
  let _ ← fixed 2 0 59
  char ':'
  let _ ← fixed 2 0 60
  let _ ← optional? (do char '.'; someCharsThat Char.isDigit)

/-- Reads the offset of a time. -/
def offset : Reader Unit :=
  (do let _ ← charThat fun c => c == 'Z' || c == 'z') <|> do
    let _ ← charThat fun c => c == '+' || c == '-'
    let _ ← fixed 2 0 23
    char ':'
    let _ ← fixed 2 0 59

/-- Reads a date, a time, or a date with a time. -/
def moment : Reader Value :=
  (.moment ∘ String.ofList) <$> taken
    ((do
      date
      let _ ← optional? (do
        let _ ← charThat fun c => c == 'T' || c == 't' || c == ' '
        time
        let _ ← optional? offset)) <|> time)

/-- Reads a truth value. -/
def truth : Reader Value :=
  (do text "true".toList; return .boolean true) <|> (do text "false".toList; return .boolean false)

/-- Reads a value that holds no others. -/
def scalar : Reader Value := .text <$> quotedText <|> moment <|> float <|> integer <|> truth

end PhpRename.Toml
