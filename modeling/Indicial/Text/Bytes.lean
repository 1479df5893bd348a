/-!
# Byte strings

Names, labels, messages and files are sequences of bytes. Text that the library itself writes is
ASCII or UTF-8; text that comes from outside may be anything. This module holds the type and the
few ways of laying bytes out: numbers in decimal, joining, padding and hexadecimal.
-/

namespace Indicial

/-- A byte string. -/
abbrev Bytes := List UInt8

namespace Bytes

/-- The UTF-8 encoding of a string. -/
def ofString (s : String) : Bytes := s.toUTF8.data.toList

instance : Coe String Bytes := ⟨ofString⟩

/-- The byte of an ASCII character. -/
def ofChar (c : Char) : UInt8 := c.toNat.toUInt8

/-- A natural number in decimal. -/
def ofNat (n : Nat) : Bytes := (Nat.toDigits 10 n).map ofChar

/-- An integer in decimal, with a minus sign when it is negative. -/
def ofInt (n : Int) : Bytes :=
  if n < 0 then 45 :: ofNat n.natAbs else ofNat n.natAbs

/-- The items in order, with a separator between neighbours. -/
def join (sep : Bytes) : List Bytes → Bytes
  | [] => []
  | [x] => x
  | x :: y :: rest => x ++ sep ++ join sep (y :: rest)

/-- `text` followed by spaces up to `width`, of which `used` places are taken already. -/
def padRight (width used : Nat) (text : Bytes) : Bytes :=
  text ++ List.replicate (width - used) 32

/-- `text` preceded by spaces up to `width`, of which `used` places are taken already. -/
def padLeft (width used : Nat) (text : Bytes) : Bytes :=
  List.replicate (width - used) 32 ++ text

/-- The lowercase hexadecimal digit of a number below sixteen. -/
def hexDigit (n : Nat) : UInt8 :=
  if n < 10 then (48 + n).toUInt8 else (87 + n).toUInt8

/-- Two lowercase hexadecimal digits for each byte. -/
def toHex (bs : Bytes) : Bytes :=
  bs.flatMap fun b => [hexDigit (b.toNat / 16), hexDigit (b.toNat % 16)]

/-- The value of a hexadecimal digit. -/
def ofHexDigit? (b : UInt8) : Option UInt8 :=
  if 48 ≤ b && b ≤ 57 then some (b - 48)
  else if 97 ≤ b && b ≤ 102 then some (b - 87)
  else if 65 ≤ b && b ≤ 70 then some (b - 55)
  else none

/-- The bytes that pairs of hexadecimal digits stand for. -/
def ofHex? : Bytes → Option Bytes
  | [] => some []
  | [_] => none
  | a :: b :: rest => do return (16 * (← ofHexDigit? a) + (← ofHexDigit? b)) :: (← ofHex? rest)

/-- A number in lowercase hexadecimal, with at least `width` digits. -/
def hexOfNat (width n : Nat) : Bytes :=
  let digits := (Nat.toDigits 16 n).map ofChar
  List.replicate (width - digits.length) 48 ++ digits

/-- Whether `bs` starts with `start`. -/
def startsWith (bs start : Bytes) : Bool := start.isPrefixOf bs

/-- An ASCII letter in lower case; every other byte as it is. -/
def lowerByte (b : UInt8) : UInt8 := if 65 ≤ b && b ≤ 90 then b + 32 else b

/-- ASCII letters in lower case. -/
def lower (bs : Bytes) : Bytes := bs.map lowerByte

/-- Whether the byte is a decimal digit. -/
def isDigit (b : UInt8) : Bool := 48 ≤ b && b ≤ 57

/-- Whether the byte is an ASCII letter or an underscore. -/
def isLetter (b : UInt8) : Bool :=
  97 ≤ b && b ≤ 122 || 65 ≤ b && b ≤ 90 || b == 95

/-- The parts before and after the first `sep`, if there is one. -/
def cut (sep : UInt8) : Bytes → Option (Bytes × Bytes)
  | [] => none
  | b :: rest =>
    if b == sep then some ([], rest)
    else (cut sep rest).map fun (before, after) => (b :: before, after)

/-- The order of byte strings: by the first differing byte, a proper beginning first. -/
def less : Bytes → Bytes → Bool
  | _, [] => false
  | [], _ :: _ => true
  | a :: as, b :: bs => if a == b then less as bs else a < b

end Bytes

end Indicial
