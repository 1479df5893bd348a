import Indicial.Text.Utf8
import Indicial.Text.Printable

/-!
# Quoted text

Messages show outside text between quotes, so that every byte of it can be read off. Printable
characters stand for themselves, the usual control characters have a letter, and everything else is
written by its number: two hexadecimal digits for a byte, four or eight for a code point.
-/

namespace Indicial.Quoted

/-- The letter that names a control character after a backslash. -/
def controlLetter (n : Nat) : Option Char :=
  if n = 7 then some 'a' else if n = 8 then some 'b' else if n = 12 then some 'f'
  else if n = 10 then some 'n' else if n = 13 then some 'r' else if n = 9 then some 't'
  else if n = 11 then some 'v' else none

/-- One character inside quotes, `quote` being the mark around it. -/
def escapeChar (quote : UInt8) (c : Char) : Bytes :=
  let n := c.toNat
  if n = quote.toNat || n = 92 then [92, n.toUInt8]
  else if Printable.isPrintable c then Utf8.encode c
  else match controlLetter n with
    | some letter => [92, Bytes.ofChar letter]
    | none =>
      if n < 32 || n = 127 then [92, 120] ++ Bytes.hexOfNat 2 n
      else if n < 0x10000 then [92, 117] ++ Bytes.hexOfNat 4 n
      else [92, 85] ++ Bytes.hexOfNat 8 n

/-- One piece inside double quotes. -/
def escapePiece : Utf8.Piece → Bytes
  | .char c => escapeChar 34 c
  | .stray b => [92, 120] ++ Bytes.hexOfNat 2 b.toNat

/-- A byte string between double quotes. -/
def text (bs : Bytes) : Bytes :=
  [34] ++ (Utf8.scan bs).flatMap escapePiece ++ [34]

/-- The character whose code point is the byte, between single quotes. -/
def byte (b : UInt8) : Bytes :=
  [39] ++ escapeChar 39 (Char.ofNat b.toNat) ++ [39]

/-- Quoted texts in brackets, separated by spaces. -/
def list (items : List Bytes) : Bytes :=
  [91] ++ Bytes.join [32] (items.map text) ++ [93]

end Indicial.Quoted
