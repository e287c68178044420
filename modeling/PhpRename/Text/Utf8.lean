import PhpRename.Text.Ascii

/-!
# UTF-8

Writing characters as bytes, and reading bytes that need not be well formed. `next` reads one
piece of a byte string: a character, or a stretch that begins a character and cannot be continued
to one. Lossy reading replaces each such stretch by U+FFFD; strict reading refuses it.
-/

set_option autoImplicit false

namespace PhpRename.Utf8

/-- The bytes of a list of characters. -/
def encodeChars (cs : List Char) : Bytes := cs.flatMap String.utf8EncodeChar

/-- The bytes of a text. -/
def encode (s : String) : Bytes := encodeChars s.toList

/-- Whether a byte continues a character. -/
def isContinuation (b : UInt8) : Bool := 0x80 ≤ b && b ≤ 0xbf

/-- The number of continuation bytes that a leading byte asks for, none if it cannot lead. -/
def trailing? (lead : UInt8) : Option Nat :=
  if lead < 0x80 then some 0
  else if lead < 0xc2 then none
  else if lead < 0xe0 then some 1
  else if lead < 0xf0 then some 2
  else if lead < 0xf5 then some 3
  else none

/-- Whether a byte may follow a leading byte: overlong forms, surrogates and code points past
U+10FFFF are shut out here. -/
def maySecond (lead second : UInt8) : Bool :=
  if lead == 0xe0 then 0xa0 ≤ second && second ≤ 0xbf
  else if lead == 0xed then 0x80 ≤ second && second ≤ 0x9f
  else if lead == 0xf0 then 0x90 ≤ second && second ≤ 0xbf
  else if lead == 0xf4 then 0x80 ≤ second && second ≤ 0x8f
  else isContinuation second

/-- The code point bits that a leading byte carries, given its number of continuation bytes. -/
def leadBits (lead : UInt8) : Nat → Nat
  | 0 => lead.toNat
  | 1 => lead.toNat % 0x20
  | 2 => lead.toNat % 0x10
  | _ => lead.toNat % 0x08

/-- Reads `n` continuation bytes after the code point bits read so far: the code point or none,
and how many bytes were read. -/
def continuation (code : Nat) : Nat → Bytes → Option Nat × Nat
  | 0, _ => (some code, 0)
  | _ + 1, [] => (none, 0)
  | n + 1, b :: rest =>
    if isContinuation b then
      let (result, used) := continuation (code * 0x40 + b.toNat % 0x40) n rest
      (result, used + 1)
    else (none, 0)

/-- Reads one piece: the character or none for an ill-formed stretch, and the number of bytes of
the piece after its first. -/
def next (lead : UInt8) (rest : Bytes) : Option Char × Nat :=
  match trailing? lead with
  | none => (none, 0)
  | some 0 => (some (Char.ofNat lead.toNat), 0)
  | some (n + 1) =>
    match rest with
    | [] => (none, 0)
    | second :: _ =>
      if maySecond lead second then
        let (code, used) := continuation (leadBits lead (n + 1)) (n + 1) rest
        (code.map Char.ofNat, used)
      else (none, 0)

/-- The pieces of a byte string, in order; none stands for an ill-formed stretch. -/
def pieces : Bytes → List (Option Char)
  | [] => []
  | lead :: rest =>
    (next lead rest).1 :: pieces (rest.drop (next lead rest).2)
termination_by bs => bs.length
decreasing_by simp only [List.length_drop, List.length_cons]; omega

/-- The character that stands for an ill-formed stretch. -/
def replacement : Char := Char.ofNat 0xfffd

/-- Reads a byte string, replacing each ill-formed stretch by U+FFFD. -/
def decodeLossy (bs : Bytes) : String :=
  String.ofList ((pieces bs).map (·.getD replacement))

/-- Reads a byte string, refusing one that is not well formed. -/
def decode? (bs : Bytes) : Option String :=
  ((pieces bs).mapM id).map String.ofList

end PhpRename.Utf8
