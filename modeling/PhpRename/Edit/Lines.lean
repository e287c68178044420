import PhpRename.Edit.Basic

/-!
# Carrying out edits

The edits of a file are carried out together or not at all. Each line's edits are replayed from
left to right, and a running offset says by how much the earlier ones have moved the later ones.
-/

set_option autoImplicit false

namespace PhpRename

/-- Why edits cannot be carried out. -/
inductive FaultKind where
  /-- An edit starts inside what an earlier one has written. -/
  | conflict
  /-- Two edits start at the same place. -/
  | duplicate
  /-- An edit reaches outside its line, or its line does not exist. -/
  | outOfBounds
  deriving DecidableEq, Repr

/-- A fault of an edit, and where that edit starts. -/
structure EditFault where
  kind : FaultKind
  position : Position
  deriving DecidableEq, Repr

namespace Edit

/-- The lines of a content, each with its line feed. -/
def lines : Bytes → List Bytes
  | [] => []
  | b :: rest =>
    if b == 0x0a then [b] :: lines rest
    else
      match lines rest with
      | [] => [[b]]
      | line :: more => (b :: line) :: more

theorem flatten_lines (content : Bytes) : (lines content).flatten = content := by
  induction content with
  | nil => rfl
  | cons b rest ih =>
    rw [lines]
    split
    · simp [ih]
    · split <;> simp_all

/-- The number of bytes of a line before its line feed, or before a carriage return and a line
feed. -/
def contentLength (line : Bytes) : Nat :=
  match line.reverse with
  | [] => 0
  | [last] => if last == 0x0a then 0 else 1
  | last :: previous :: rest =>
    if last == 0x0a then if previous == 0x0d then rest.length else rest.length + 1
    else rest.length + 2

/-- Replays the edits of a line, in the order of their columns. `offset` is by how much the earlier
ones have moved the rest of the line, `written` the column of the last byte that they wrote. -/
def replay (offset written : Int) : List Edit → Bytes → Except EditFault Bytes
  | [], line => .ok line
  | e :: rest, line =>
    let column := (e.column : Int) + offset
    if column ≤ written then .error ⟨.conflict, e.key⟩
    else
      let start := (column - 1).toNat
      if contentLength line < start + e.length then .error ⟨.outOfBounds, e.key⟩
      else
        replay (offset + e.delta) (column + e.bytes.length - 1) rest
          (line.take start ++ e.bytes ++ line.drop (start + e.length))

/-- Carries out edits, in the order of line and column, on the lines from number `n` on. -/
def replayLines (edits : List Edit) (n : Nat) : List Bytes → Except EditFault (List Bytes)
  | [] =>
    match edits.find? (n ≤ ·.line) with
    | some e => .error ⟨.outOfBounds, e.key⟩
    | none => .ok []
  | line :: rest => do
    let line ← replay 0 0 (edits.filter (·.line == n)) line
    let rest ← replayLines edits (n + 1) rest
    .ok (line :: rest)

/-- The first edit that starts where an earlier one starts. -/
def duplicate? (seen : List Position) : List Edit → Option EditFault
  | [] => none
  | e :: rest =>
    if seen.contains e.key then some ⟨.duplicate, e.key⟩ else duplicate? (e.key :: seen) rest

/-- The first edit that starts where an earlier one starts or has line or column 0. -/
def misplaced? (seen : List Position) : List Edit → Option EditFault
  | [] => none
  | e :: rest =>
    if seen.contains e.key then some ⟨.duplicate, e.key⟩
    else if e.line == 0 || e.column == 0 then some ⟨.outOfBounds, e.key⟩
    else misplaced? (e.key :: seen) rest

/-- Whether an edit comes before another, by line and column. -/
def precedes (a b : Edit) : Bool := a.line < b.line || (a.line == b.line && a.column ≤ b.column)

/-- Carries out edits on a content: all of them or none. -/
def applyAll (edits : List Edit) (content : Bytes) : Except EditFault Bytes :=
  match misplaced? [] edits with
  | some fault => .error fault
  | none => (replayLines (edits.mergeSort precedes) 1 (lines content)).map List.flatten

end Edit

end PhpRename
