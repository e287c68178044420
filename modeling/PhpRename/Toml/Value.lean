/-!
# Configuration documents

A TOML document is a table: keys with values, where a value may be a table again. Which lines may add
to a table depends on how it came to be (`Origin`). `addPair`, `openTable` and `openRow` carry out the
three kinds of lines.
-/

set_option autoImplicit false

namespace PhpRename.Toml

/-- How a table came to be. -/
inductive Origin where
  /-- A header line names it. -/
  | header
  /-- It lies on the way to a table that a header line names. -/
  | implied
  /-- It lies on the way to a dotted key. -/
  | dotted
  /-- It is written out as a value. -/
  | written
  deriving DecidableEq, Repr

/-- A value of a document. -/
inductive Value where
  | text (s : String)
  | integer (n : Int)
  /-- A number with fraction or exponent, as written. -/
  | float (literal : String)
  | boolean (b : Bool)
  /-- A date, a time or both, as written. -/
  | moment (literal : String)
  | list (values : List Value)
  | table (origin : Origin) (entries : List (String × Value))
  /-- The tables of repeated header lines. -/
  | rows (tables : List (List (String × Value)))
  deriving Repr

/-- The keys of a table with their values, each key once. -/
abbrev Entries := List (String × Value)

namespace Entries

/-- The entries with another value for a key that they have. -/
def set (entries : Entries) (key : String) (value : Value) : Entries :=
  entries.map fun e => if e.1 == key then (key, value) else e

/-- Changes the table that a path leads to. The path makes tables that are missing, goes on in the
last of repeated tables, and does not lead into other values. A path of dotted keys does not lead into
a table that has a header line. The change is told whether the table it meets is one of dotted keys. -/
def update (dotted : Bool) (change : Bool → Entries → Option Entries) (isDotted : Bool) :
    List String → Entries → Option Entries
  | [], entries => change isDotted entries
  | key :: path, entries =>
    match entries.lookup key with
    | none => do
      let inner ← update dotted change dotted path []
      return entries ++ [(key, .table (if dotted then .dotted else .implied) inner)]
    | some (.table origin inner) =>
      if origin == .written || (dotted && origin == .header) then none
      else do
        let inner ← update dotted change (origin == .dotted) path inner
        return entries.set key (.table origin inner)
    | some (.rows tables) => do
      let last ← tables.getLast?
      let last ← update dotted change false path last
      return entries.set key (.rows (tables.dropLast ++ [last]))
    | some _ => none

/-- Adds a key with its value, by way of dotted keys. The key must be new, and dotted keys add to
tables of dotted keys only. -/
def addPair (path : List String) (key : String) (value : Value) (entries : Entries) : Option Entries :=
  update true (fun isDotted inner =>
    if isDotted == path.isEmpty || (inner.lookup key).isSome then none
    else some (inner ++ [(key, value)])) false path entries

/-- Opens the table that a header line names: a new one, or one that header lines below it imply. -/
def openTable (path : List String) (key : String) (entries : Entries) : Option Entries :=
  update false (fun _ inner =>
    match inner.lookup key with
    | none => some (inner ++ [(key, .table .header [])])
    | some (.table .implied below) => some (inner.set key (.table .header below))
    | some _ => none) false path entries

/-- Opens one more of the tables of a repeated header line. -/
def openRow (path : List String) (key : String) (entries : Entries) : Option Entries :=
  update false (fun _ inner =>
    match inner.lookup key with
    | none => some (inner ++ [(key, .rows [[]])])
    | some (.rows tables) => some (inner.set key (.rows (tables ++ [[]])))
    | some _ => none) false path entries

end Entries

end PhpRename.Toml
