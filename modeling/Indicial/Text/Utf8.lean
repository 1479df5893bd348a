import Indicial.Text.Bytes

/-!
# Reading UTF-8

A byte string is read as a sequence of pieces: the characters that well-formed UTF-8 encodes, and
single stray bytes wherever the encoding is broken. Overlong forms, surrogates and numbers beyond
the last code point count as broken.
-/

namespace Indicial.Utf8

/-- One step of reading: a character, or a byte that starts no well-formed character. -/
inductive Piece where
  | char (c : Char)
  | stray (b : UInt8)
deriving DecidableEq

/-- Whether the byte continues a character. -/
def isTail (b : UInt8) : Bool := 0x80 ≤ b && b ≤ 0xBF

/-- The six payload bits of a continuation byte. -/
def tailBits (b : UInt8) : Nat := b.toNat % 64

/-- The pieces of a byte string, in order. -/
def scan : Bytes → List Piece
  | [] => []
  | b :: rest =>
    if b < 0x80 then .char (Char.ofNat b.toNat) :: scan rest
    else match rest with
      | [] => [.stray b]
      | c :: rest₁ =>
        if 0xC2 ≤ b && b ≤ 0xDF && isTail c then
          .char (Char.ofNat (b.toNat % 32 * 64 + tailBits c)) :: scan rest₁
        else match rest₁ with
          | [] => .stray b :: scan [c]
          | d :: rest₂ =>
            let three := b.toNat % 16 * 4096 + tailBits c * 64 + tailBits d
            if 0xE0 ≤ b && b ≤ 0xEF && isTail c && isTail d && 0x800 ≤ three
                && !(0xD800 ≤ three && three ≤ 0xDFFF) then
              .char (Char.ofNat three) :: scan rest₂
            else match rest₂ with
              | [] => .stray b :: scan [c, d]
              | e :: rest₃ =>
                let four := b.toNat % 8 * 262144 + tailBits c * 4096 + tailBits d * 64 + tailBits e
                if 0xF0 ≤ b && b ≤ 0xF4 && isTail c && isTail d && isTail e && 0x10000 ≤ four
                    && four ≤ 0x10FFFF then
                  .char (Char.ofNat four) :: scan rest₃
                else .stray b :: scan (c :: d :: e :: rest₃)
termination_by bs => bs.length

/-- Whether every byte belongs to a well-formed character. -/
def valid (bs : Bytes) : Bool :=
  (scan bs).all fun
    | .char _ => true
    | .stray _ => false

/-- The number of pieces, which is the number of columns that padding counts. -/
def count (bs : Bytes) : Nat := (scan bs).length

/-- The bytes of one character. -/
def encode (c : Char) : Bytes := Bytes.ofString (String.singleton c)

end Indicial.Utf8
