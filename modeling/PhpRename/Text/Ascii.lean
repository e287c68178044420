/-!
# ASCII classes and letter case

Source text is read byte by byte, and names are compared without regard to the case of the
letters `A` to `Z`: `sameIgnoringCase_iff` says that two names are the same when they fold to the
same text.
-/

set_option autoImplicit false

namespace PhpRename

/-- A byte string: the content of a file or of a part of it. -/
abbrev Bytes := List UInt8

namespace Ascii

/-- The byte that spells an ASCII character. -/
def byte (c : Char) : UInt8 := c.toNat.toUInt8

/-- Whether a byte is an ASCII letter. -/
def isLetter (b : UInt8) : Bool := (0x41 ≤ b && b ≤ 0x5a) || (0x61 ≤ b && b ≤ 0x7a)

/-- Whether a byte is a decimal digit. -/
def isDigit (b : UInt8) : Bool := 0x30 ≤ b && b ≤ 0x39

/-- Whether a byte is a space, tab, line feed, form feed or carriage return. -/
def isSpace (b : UInt8) : Bool := b == 0x20 || b == 0x09 || b == 0x0a || b == 0x0c || b == 0x0d

/-- Whether a byte is a space or a tab. -/
def isBlank (b : UInt8) : Bool := b == 0x20 || b == 0x09

/-- Folds the letters `A` to `Z` of a text to lower case and keeps all else. -/
def lower (s : String) : String := String.ofList (s.toList.map Char.toLower)

/-- Whether two texts agree up to the case of ASCII letters. -/
def sameIgnoringCase (a b : String) : Bool := lower a == lower b

theorem sameIgnoringCase_iff (a b : String) : sameIgnoringCase a b = true ↔ lower a = lower b := by
  simp [sameIgnoringCase]

theorem sameIgnoringCase_refl (a : String) : sameIgnoringCase a a = true := by
  simp [sameIgnoringCase]

end Ascii

end PhpRename
