import PhpRename.Text.Ascii
import PhpRename.Text.Utf8
import PhpRename.Token.Basic

/-!
# Edits

An edit replaces bytes of one line of a file by a text. It is proposed with a confidence, and the
edit mode of a run decides which confidences are carried out.
-/

set_option autoImplicit false

namespace PhpRename

/-- How sure it is that an edit is right. -/
inductive Confidence where
  /-- The meaning of the edited token is fully resolved. -/
  | high
  /-- The edit rests on an unresolved type or on a match of text. -/
  | low
  deriving DecidableEq, Repr

/-- Which edits of a run are carried out. -/
inductive EditMode where
  /-- None; each is reported. -/
  | timid
  /-- Those of high confidence; the others are reported. -/
  | conservative
  /-- All. -/
  | aggressive
  deriving DecidableEq, Repr

namespace EditMode

/-- Whether an edit of a confidence is carried out. -/
def permits : EditMode → Confidence → Bool
  | timid, _ => false
  | conservative, c => c == .high
  | aggressive, _ => true

/-- Whether files are moved. -/
def permitsMove : EditMode → Bool
  | timid => false
  | _ => true

/-- The name of a mode. -/
def name : EditMode → String
  | timid => "timid"
  | conservative => "conservative"
  | aggressive => "aggressive"

/-- Every mode. -/
def all : List EditMode := [timid, conservative, aggressive]

/-- The mode of exactly this name. -/
def ofName? (text : String) : Option EditMode := all.find? (·.name == text)

/-- The mode that a text names in any letter case, or the wording of the refusal. -/
def parse (text : String) : Except String EditMode :=
  match ofName? (Ascii.lower text) with
  | some mode => .ok mode
  | none => .error ("unknown edit mode '" ++ Ascii.lower text ++
      "', expected timid, conservative or aggressive")

end EditMode

/-- A replacement of bytes of one line, addressed in the content before any edit. Line, column and length stay
below 2^32, as in a `Position`. -/
structure Edit where
  /-- The line, counted from 1. -/
  line : Nat
  /-- The first replaced byte of the line, counted from 1. -/
  column : Nat
  /-- The number of replaced bytes. -/
  length : Nat
  replacement : String
  confidence : Confidence
  deriving DecidableEq, Repr

namespace Edit

/-- Where an edit starts; two edits of a file must not share it. -/
def key (e : Edit) : Position := ⟨e.line, e.column⟩

/-- The bytes that an edit puts in. -/
def bytes (e : Edit) : Bytes := Utf8.encode e.replacement

/-- By how many bytes an edit makes its line longer. -/
def delta (e : Edit) : Int := (e.bytes.length : Int) - (e.length : Int)

end Edit

end PhpRename
