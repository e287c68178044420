import PhpRename.Toml.Scalar

/-!
# Reading configuration documents

A document is a list of lines: header lines, repeated header lines, and pairs of key and value. The
lines are read first and then carried out one after the other (`parse?`).
-/

set_option autoImplicit false

namespace PhpRename.Toml

open Reader

/-- The depth to which values may hold others. -/
def maxDepth : Nat := 79

/-- Reads a key and its value, which a reader of values takes. -/
def pair (value : Reader Value) : Reader (List String × String × Value) := do
  let (path, key) ← dottedKey
  char '='
  blanks
  return (path, key, ← value)

/-- Reads a list of values; it may span lines and end with a comma. -/
def listOf (value : Reader Value) : Reader Value := do
  char '['
  let values ← anySeparated (do spacing; let v ← value; spacing; return v) (char ',')
  if !values.isEmpty then let _ ← optional? (char ',')
  spacing
  char ']'
  return .list values

/-- Reads a table that is written out as a value, on one line. -/
def tableOf (value : Reader Value) : Reader Value := do
  char '\x7b'
  let pairs ← anySeparated (do let p ← pair value; blanks; return p) (char ',')
  blanks
  char '\x7d'
  match pairs.foldlM (fun entries (path, key, v) => Entries.addPair path key v entries) [] with
  | some entries => return .table .written entries
  | none => failure

/-- Reads a value that holds others down to a depth. -/
def value : Nat → Reader Value
  | 0 => scalar
  | depth + 1 => scalar <|> listOf (value depth) <|> tableOf (value depth)

/-- A line of a document. -/
inductive Line where
  /-- A line without content. -/
  | empty
  | header (path : List String) (key : String)
  | row (path : List String) (key : String)
  | pair (path : List String) (key : String) (value : Value)
  deriving Repr

/-- Reads a line with its end. -/
def line : Reader Line := do
  blanks
  (do newline; return .empty) <|>
  (do comment; newline <|> atEnd; return .empty) <|>
  (do
    text ['[', '[']
    let (path, key) ← dottedKey
    text [']', ']']
    lineRest
    return .row path key) <|>
  (do
    char '['
    let (path, key) ← dottedKey
    char ']'
    lineRest
    return .header path key) <|>
  (do
    let (path, key, v) ← pair (value maxDepth)
    lineRest
    return .pair path key v)

/-- A document that is being put together: its entries and the table that pairs are added to. -/
structure Draft where
  entries : Entries := []
  current : List String := []
  deriving Repr

/-- Carries out a line. -/
def Draft.apply? (d : Draft) : Line → Option Draft
  | .empty => some d
  | .header path key => do
    return ⟨← d.entries.openTable path key, path ++ [key]⟩
  | .row path key => do
    return ⟨← d.entries.openRow path key, path ++ [key]⟩
  | .pair path key v => do
    let entries ← Entries.update false (fun _ => Entries.addPair path key v) false d.current d.entries
    return { d with entries }

/-- The lines of a text. A byte order mark at the start does not count. -/
def lines? (s : String) : Option (List Line) :=
  readAll? (do
    let _ ← optional? (char (Char.ofNat 0xfeff))
    let lines ← many line
    blanks
    return lines) s

/-- Reads a document. -/
def parse? (s : String) : Option Entries := do
  let d ← (← lines? s).foldlM (fun d l => Draft.apply? d l) ({} : Draft)
  return d.entries

end PhpRename.Toml
