import PhpRename.Glob.Basic

/-!
# Reading path patterns

A pattern is read from left to right. Open groups of alternatives are kept on a stack; what `**` means
depends on the character before it, on the one after it, and on whether its branch has parts yet.
-/

set_option autoImplicit false

namespace PhpRename.Glob

/-- Why a text is no pattern. -/
inductive Fault where
  | unclosedClass
  | invalidRange (first last : Char)
  | unopenedGroup
  | unclosedGroup
  | danglingEscape
  deriving DecidableEq, Repr

/-- The wording of a fault. -/
def Fault.message : Fault → String
  | unclosedClass => "unclosed character class; missing ']'"
  | invalidRange first last =>
    "invalid range; '" ++ String.singleton first ++ "' > '" ++ String.singleton last ++ "'"
  | unopenedGroup =>
    "unopened alternate group; missing '\x7b' (maybe escape '\x7d' with '[\x7d]'?)"
  | unclosedGroup =>
    "unclosed alternate group; missing '\x7d' (maybe escape '\x7b' with '[\x7b]'?)"
  | danglingEscape => "dangling '\\'"

/-- A group of alternatives that is being read. -/
structure Group where
  /-- The parts of the branch that the group stands in, last part first. -/
  outer : List Part
  /-- The finished branches, last one first. -/
  branches : List (List Part)
  deriving Repr

/-- What has been read of a pattern. -/
structure Draft where
  /-- The parts of the branch that is being read, last part first. -/
  parts : List Part := []
  /-- The open groups, innermost first. -/
  groups : List Group := []
  deriving Repr

namespace Draft

/-- The draft with one more part. -/
def push (d : Draft) (part : Part) : Draft := { d with parts := part :: d.parts }

/-- The draft with two stars for a `**` that stands for no directories. -/
def pushStars (d : Draft) : Draft := (d.push .star).push .star

/-- Opens a group. -/
def openGroup (d : Draft) : Draft := ⟨[], ⟨d.parts, []⟩ :: d.groups⟩

/-- Reads a comma: the next branch of a group, or a plain character outside of one. -/
def comma (d : Draft) : Draft :=
  match d.groups with
  | [] => d.push (.literal ',')
  | g :: groups => ⟨[], ⟨g.outer, d.parts.reverse :: g.branches⟩ :: groups⟩

/-- Closes the innermost group. -/
def closeGroup (d : Draft) : Except Fault Draft :=
  match d.groups with
  | [] => .error .unopenedGroup
  | g :: groups =>
    .ok ⟨.alternatives (d.parts.reverse :: g.branches).reverse :: g.outer, groups⟩

/-- Puts a `**` that stands for directories in the place of the part before it, unless that one
stands for directories at an end already. -/
def replaceLast (d : Draft) (part : Part) : Draft :=
  match d.parts with
  | .directoriesFirst :: _ => d
  | .directoriesLast :: _ => d
  | _ :: parts => { d with parts := part :: parts }
  | [] => d.push part

/-- Reads a `**` between the character before and the one after it. The flag says whether the slash
after it is read as well. -/
def doubleStar (d : Draft) (before after : Option Char) : Draft × Bool :=
  if d.parts.isEmpty then
    match after with
    | none => (d.push .directoriesFirst, false)
    | some '/' => (d.push .directoriesFirst, true)
    | some _ => (d.pushStars, false)
  else if before != some '/' && (d.groups.isEmpty || (before != some ',' && before != some '\x7b')) then
    (d.pushStars, false)
  else
    match after with
    | none => (d.replaceLast .directoriesLast, false)
    | some '/' => (d.replaceLast .directoriesBetween, true)
    | some c =>
      if (c == ',' || c == '\x7d') && !d.groups.isEmpty then (d.replaceLast .directoriesLast, false)
      else (d.pushStars, false)

end Draft

/-- Reads the ranges of a character class up to its end, with those found so far, last one first.
Gives the ranges and how many characters were read. A bracket or a hyphen is a plain character at the
start, and so is a hyphen at the end. -/
def readRanges (isFirst inRange : Bool) (found : List Range) (used : Nat) :
    List Char → Except Fault (List Range × Nat)
  | [] => .error .unclosedClass
  | c :: rest =>
    if c == ']' && !isFirst then
      .ok ((if inRange then ⟨'-', '-'⟩ :: found else found).reverse, used + 1)
    else if c == '-' && !isFirst && !inRange then readRanges false true found (used + 1) rest
    else
      match inRange, found with
      | true, r :: found =>
        if c < r.first then .error (.invalidRange r.first c)
        else readRanges false false (⟨r.first, c⟩ :: found) (used + 1) rest
      | _, _ => readRanges false false (⟨c, c⟩ :: found) (used + 1) rest

/-- Reads a character class after its opening bracket: the part and how many characters were read. -/
def readClass (cs : List Char) : Except Fault (Part × Nat) := do
  let negated := cs.head?.any fun c => c == '!' || c == '^'
  let start := if negated then 1 else 0
  let (ranges, used) ← readRanges true false [] start (cs.drop start)
  return (.oneOf negated ranges, used)

/-- Reads the rest of a pattern, given the character before it. -/
def readParts (d : Draft) (before : Option Char) (cs : List Char) : Except Fault Draft :=
  match cs with
  | [] => .ok d
  | '*' :: '*' :: rest =>
    match d.doubleStar before rest.head? with
    | (d, true) => readParts d (some '/') rest.tail
    | (d, false) => readParts d (some '*') rest
  | '[' :: rest =>
    match readClass rest with
    | .error e => .error e
    | .ok (part, used) => readParts (d.push part) (some ']') (rest.drop used)
  | '\\' :: rest =>
    match rest with
    | [] => .error .danglingEscape
    | c :: rest => readParts (d.push (.literal c)) (some c) rest
  | c :: rest =>
    match c with
    | '?' => readParts (d.push .any) (some c) rest
    | '*' => readParts (d.push .star) (some c) rest
    | ',' => readParts d.comma (some c) rest
    | '\x7b' => readParts d.openGroup (some c) rest
    | '\x7d' =>
      match d.closeGroup with
      | .error e => .error e
      | .ok d => readParts d (some c) rest
    | _ => readParts (d.push (.literal c)) (some c) rest
termination_by cs.length
decreasing_by all_goals simp only [List.length_cons, List.length_tail, List.length_drop]; omega

/-- Reads a pattern. -/
def parse (text : String) : Except Fault Glob := do
  let d ← readParts {} none text.toList
  if d.groups.isEmpty then return ⟨d.parts.reverse⟩ else throw .unclosedGroup

end PhpRename.Glob
