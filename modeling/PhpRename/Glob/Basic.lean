import PhpRename.Text.Utf8

/-!
# Path patterns

A pattern is a list of parts. `*` and `?` also match a slash; `**` stands for whole directories.
`Part.rests` gives what may be left of a byte string after a part, and a pattern matches when nothing
can be left (`Glob.accepts`).
-/

set_option autoImplicit false

namespace PhpRename

namespace Glob

/-- A range of characters, both ends included. -/
structure Range where
  first : Char
  last : Char
  deriving DecidableEq, Repr

/-- One part of a pattern. -/
inductive Part where
  /-- A character that stands for itself. -/
  | literal (c : Char)
  /-- `?`: any byte. -/
  | any
  /-- `*`: any stretch. -/
  | star
  /-- `**/` at the start: nothing, or directories with their slash. -/
  | directoriesFirst
  /-- `/**` at the end: everything below a directory. -/
  | directoriesLast
  /-- `/**/` in between: a slash, or directories between slashes. -/
  | directoriesBetween
  /-- `[…]` or `[!…]`: a byte that is in the ranges or, negated, is not. -/
  | oneOf (negated : Bool) (ranges : List Range)
  /-- Braces with branches between commas: any of the branches. -/
  | alternatives (branches : List (List Part))
  deriving Repr

/-- Whether a byte lies between two others. -/
def isBetween (lo hi b : UInt8) : Bool := lo ≤ b && b ≤ hi

/-- Whether a byte is in a range. The bytes of a character count one by one, and the range runs from
the last byte of its first character to the first byte of its last one. -/
def Range.holds (r : Range) (b : UInt8) : Bool :=
  let lo := Utf8.encodeChars [r.first]
  let hi := Utf8.encodeChars [r.last]
  if r.first == r.last then lo.contains b
  else
    lo.dropLast.contains b || hi.tail.contains b ||
      isBetween (lo.getLast?.getD 0) (hi.head?.getD 0) b

/-- The byte string and all that is left of it after some of its bytes. -/
def suffixes : Bytes → List Bytes
  | [] => [[]]
  | b :: rest => (b :: rest) :: suffixes rest

/-- What follows each slash of a byte string. -/
def afterSlashes : Bytes → List Bytes
  | [] => []
  | b :: rest => if b == 0x2f then rest :: afterSlashes rest else afterSlashes rest

/-- What follows a slash at the start of a byte string. -/
def afterSlash? : Bytes → Option Bytes
  | [] => none
  | b :: rest => if b == 0x2f then some rest else none

mutual

/-- Whether a part has nothing to match. -/
def Part.isVoid : Part → Bool
  | .alternatives branches => areVoid branches
  | _ => false

/-- Whether all parts have nothing to match. -/
def isVoid : List Part → Bool
  | [] => true
  | part :: parts => part.isVoid && isVoid parts

/-- Whether all branches have nothing to match. -/
def areVoid : List (List Part) → Bool
  | [] => true
  | branch :: branches => isVoid branch && areVoid branches

end

mutual

/-- What may be left of a byte string after a part. Branches that have nothing to match do not count,
unless there are no others. -/
def Part.rests : Part → Bytes → List Bytes
  | .literal c, bs =>
    let cs := Utf8.encodeChars [c]
    if cs.isPrefixOf bs then [bs.drop cs.length] else []
  | .any, bs => bs.tail?.toList
  | .star, bs => suffixes bs
  | .directoriesFirst, bs => bs :: afterSlashes bs
  | .directoriesLast, bs => (afterSlash? bs).elim [] suffixes
  | .directoriesBetween, bs => (afterSlash? bs).elim [] fun rest => rest :: afterSlashes rest
  | .oneOf negated ranges, bs =>
    match bs with
    | [] => []
    | b :: rest => if ranges.any (·.holds b) != negated then [rest] else []
  | .alternatives branches, bs => if areVoid branches then [bs] else restsAny branches bs

/-- What may be left of byte strings after parts, each rest once. -/
def restsAll : List Part → List Bytes → List Bytes
  | [], rests => rests
  | part :: parts, rests => restsAll parts (rests.flatMap fun bs => part.rests bs).eraseDups

/-- What may be left of a byte string after one of the branches that have something to match. -/
def restsAny : List (List Part) → Bytes → List Bytes
  | [], _ => []
  | branch :: branches, bs =>
    if isVoid branch then restsAny branches bs else restsAll branch [bs] ++ restsAny branches bs

end

end Glob

/-- A path pattern. -/
structure Glob where
  parts : List Glob.Part
  deriving Repr

/-- Whether a pattern matches the whole of a byte string. A lone `**` matches everything. -/
def Glob.accepts (g : Glob) (bs : Bytes) : Bool :=
  match g.parts with
  | [.directoriesFirst] => true
  | parts => (Glob.restsAll parts [bs]).contains []

end PhpRename
