import PhpRename.Text.Split
import PhpRename.Text.Utf8

/-!
# Paths

A path is a byte string, of which only the slashes and dots mean anything; it need not be UTF-8. What it
means are its components. Repeated and trailing slashes and inner `.` components do not count, so two
byte strings may be the same path (`Path.same`), and paths are ordered by their components. Operations
that keep part of a path keep it as written. `Path.text` is the path as it is shown.
-/

set_option autoImplicit false

namespace PhpRename

open Ascii (byte)

/-- A file or directory path, as written. -/
structure Path where
  bytes : Bytes
  deriving DecidableEq, Repr, Inhabited

namespace Path

/-- The path that a text spells. -/
def ofText (text : String) : Path := ⟨Utf8.encode text⟩

/-- The path as it is shown in messages and names the file in bindings: what is no UTF-8 is replaced. -/
def text (p : Path) : String := Utf8.decodeLossy p.bytes

/-- One step of a path. -/
inductive Component where
  | root
  | current
  | parent
  | normal (name : Bytes)
  deriving DecidableEq, Repr

/-- The segment that stands for the directory itself. -/
def dot : Bytes := [byte '.']

/-- The segment that stands for the directory above. -/
def dotDot : Bytes := [byte '.', byte '.']

/-- A component as written. -/
def Component.bytes : Component → Bytes
  | root => [byte '/']
  | current => dot
  | parent => dotDot
  | normal name => name

/-- The pieces of a byte string between slashes. -/
def segments (bs : Bytes) : List Bytes := Text.splitOn (· == byte '/') bs

/-- Whether the path starts at the root. -/
def isAbsolute (p : Path) : Bool := p.bytes.head? == some (byte '/')

/-- The component of an inner segment, none for one that does not count. -/
def ofSegment? (segment : Bytes) : Option Component :=
  if segment == [] || segment == dot then none
  else if segment == dotDot then some .parent
  else some (.normal segment)

/-- The components of a path; a leading `.` counts when the path is relative. -/
def components (p : Path) : List Component :=
  let segs := segments p.bytes
  let inner := segs.filterMap ofSegment?
  if p.isAbsolute then .root :: inner
  else if segs.head? == some dot then .current :: inner
  else inner

/-- Whether two byte strings are the same path. -/
def same (p q : Path) : Bool := p.components == q.components

/-- The place of a component's kind in the order of components. -/
def Component.rank : Component → Nat
  | root => 0
  | current => 1
  | parent => 2
  | normal _ => 3

/-- The order of components: by kind, names by their bytes. -/
def Component.compare (a b : Component) : Ordering :=
  match a, b with
  | normal x, normal y => Ord.compare x y
  | _, _ => Ord.compare a.rank b.rank

/-- The order of component lists: the first difference decides, a shorter list comes first. -/
def compareComponents : List Component → List Component → Ordering
  | [], [] => .eq
  | [], _ :: _ => .lt
  | _ :: _, [] => .gt
  | a :: as, b :: bs => (a.compare b).then (compareComponents as bs)

/-- The order of paths. -/
def compare (p q : Path) : Ordering := compareComponents p.components q.components

/-- Puts a path into a list ordered by path, unless the list has it. -/
def insertSorted (p : Path) : List Path → List Path
  | [] => [p]
  | q :: rest =>
    match p.compare q with
    | .lt => p :: q :: rest
    | .eq => q :: rest
    | .gt => q :: insertSorted p rest

/-- Whether a segment does not count. -/
def isSilent (segment : Bytes) : Bool := (ofSegment? segment).isNone

/-- The steps of a path, which are its segments that count; a `..` is a step up. -/
def steps (p : Path) : List Bytes := (segments p.bytes).filter (!isSilent ·)

/-- Drops the segments at the end that do not count. -/
def dropSilent (segs : List Bytes) : List Bytes :=
  (segs.reverse.dropWhile isSilent).reverse

/-- The start of a path that is no inner segment: the root slash or a leading `.`. -/
def headLength (p : Path) : Nat :=
  if p.isAbsolute then 1
  else if (segments p.bytes).head? == some dot then 1
  else 0

/-- The path without its last component, as written; none for the root and the empty path. -/
def parent? (p : Path) : Option Path :=
  let start := p.bytes.take p.headLength
  match dropSilent (segments (p.bytes.drop p.headLength)) with
  | [] => if start == dot then some ⟨[]⟩ else none
  | segs => some ⟨start ++ Text.join (byte '/') (dropSilent segs.dropLast)⟩

/-- The path without its last component, or the path itself when it has none to drop. -/
def pop (p : Path) : Path := p.parent?.getD p

/-- The path with another one below it; an absolute one takes its place. -/
def push (p q : Path) : Path :=
  if q.isAbsolute then q
  else if p.bytes.isEmpty || p.bytes.getLast? == some (byte '/') then ⟨p.bytes ++ q.bytes⟩
  else ⟨p.bytes ++ byte '/' :: q.bytes⟩

/-- The last component when it is a name. -/
def fileName? (p : Path) : Option Bytes :=
  match p.components.getLast? with
  | some (.normal name) => some name
  | _ => none

/-- What follows the last dot of a name that has something before that dot. -/
def extensionOf? (name : Bytes) : Option Bytes :=
  match (Text.splitOn (· == byte '.') name).reverse with
  | last :: before :: earlier =>
    if before.isEmpty && earlier.isEmpty then none else some last
  | _ => none

/-- Whether the last components of a path are those of another. -/
def endsWith (p q : Path) : Bool := q.components.isSuffixOf p.components

end Path

end PhpRename
