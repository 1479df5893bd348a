import Indicial.Number.Binary64
import Indicial.Number.Word
import Indicial.Text.Bytes

/-!
# Reading numbers

Numbers in options and documents are read by the rules of this module. A floating-point number is a
decimal or, after `0x`, a hexadecimal one with a binary exponent; `inf`, `infinity` and `nan` are
words in any case. An integer may name its base by `0x`, `0o`, `0b` or a leading zero. Single
underscores may separate digits.
-/

namespace Indicial.Number

/-- Why a text is not a number of the wanted kind. -/
inductive Problem where
  | malformed
  | outOfRange
deriving DecidableEq

/-- The wording of a problem. -/
def Problem.message : Problem → Bytes
  | .malformed => Bytes.ofString "invalid syntax"
  | .outOfRange => Bytes.ofString "value out of range"

/-- The value of a digit in bases up to sixteen. -/
def digitValue? (b : UInt8) : Option Nat :=
  let c := Bytes.lowerByte b
  if Bytes.isDigit c then some (c.toNat - 48)
  else if 97 ≤ c && c ≤ 102 then some (c.toNat - 87)
  else none

/-- Whether the byte is a digit of the base. -/
def isDigitOf (base : Nat) (b : UInt8) : Bool :=
  match digitValue? b with
  | some v => v < base
  | none => false

/-- The sign, and the text after it. -/
def splitSign : Bytes → Bool × Bytes
  | 43 :: rest => (false, rest)
  | 45 :: rest => (true, rest)
  | rest => (false, rest)

/-- What stood before an underscore. -/
inductive Before where
  | start
  | digit
  | underscore
  | other
deriving DecidableEq

/-- Whether every underscore stands between two digits, `before` being what precedes the text. -/
def separates (hex : Bool) : Before → Bytes → Bool
  | before, [] => before != .underscore
  | before, b :: rest =>
    if isDigitOf (if hex then 16 else 10) b then separates hex .digit rest
    else if b == 95 then before == .digit && separates hex .underscore rest
    else before != .underscore && separates hex .other rest

/-- Whether the underscores of a number stand where they may: between digits, or between the mark
of the base and a digit. -/
def underscoresOk (text : Bytes) : Bool :=
  match (splitSign text).2 with
  | 48 :: b :: rest =>
    let c := Bytes.lowerByte b
    if c == 98 || c == 111 || c == 120 then separates (c == 120) .digit rest
    else separates false .start (48 :: b :: rest)
  | rest => separates false .start rest

/-- The digits of a mantissa: their value, how many stand after the point, whether there was a point
and whether there was a digit, and the text that follows. -/
structure Mantissa where
  value : Nat
  places : Nat
  point : Bool
  any : Bool
  rest : Bytes

/-- Reads digits and at most one point, passing over underscores. -/
def readMantissa (base : Nat) : (value places : Nat) → (point any : Bool) → Bytes → Mantissa
  | value, places, point, any, [] => ⟨value, places, point, any, []⟩
  | value, places, point, any, b :: rest =>
    if b == 95 then readMantissa base value places point any rest
    else if b == 46 && !point then readMantissa base value places true any rest
    else if isDigitOf base b then
      readMantissa base (value * base + (digitValue? b).getD 0) (if point then places + 1 else places)
        point true rest
    else ⟨value, places, point, any, b :: rest⟩

/-- Reads the digits of an exponent, passing over underscores. Digits past ten thousand add nothing:
the result is out of every range already. -/
def readExponent : Nat → Bytes → Nat × Bytes
  | e, [] => (e, [])
  | e, b :: rest =>
    if b == 95 then readExponent e rest
    else if Bytes.isDigit b then
      readExponent (if e < 10000 then e * 10 + (b.toNat - 48) else e) rest
    else (e, b :: rest)

/-- The optional exponent after the mark `mark`: `none` when the mark stands without digits. -/
def exponentPart (mark : UInt8) (text : Bytes) : Option (Option Int × Bytes) :=
  match text with
  | [] => some (none, [])
  | b :: rest =>
    if Bytes.lowerByte b == mark then
      let (negative, digits) := splitSign rest
      match digits with
      | [] => none
      | d :: _ =>
        if Bytes.isDigit d then
          let (e, after) := readExponent 0 digits
          some (some (if negative then -(e : Int) else e), after)
        else none
    else some (none, b :: rest)

/-- How many bytes agree with a word, cases aside. -/
def agreement : Bytes → Bytes → Nat
  | a :: as, w :: ws => if Bytes.lowerByte a == w then agreement as ws + 1 else 0
  | _, _ => 0

/-- The words for infinity and not-a-number. A text that merely starts with a word is no number. -/
def word? (text : Bytes) : Option Binary64 :=
  let (negative, rest) := splitSign text
  let is (w : String) : Bool := rest.length == w.length && agreement rest (Bytes.ofString w) == w.length
  if is "inf" || is "infinity" then
    some (if negative then Binary64.infinity.neg else Binary64.infinity)
  else if text.length == 3 && is "nan" then some Binary64.nan
  else none

/-- The number `value * base ^ (-places) * radix ^ exponent`, refused when it rounds to infinity. -/
def assemble (negative : Bool) (num den : Nat) : Except Problem Binary64 :=
  let r := Binary64.nearest num den
  if r.isInfinite then .error .outOfRange
  else .ok (if negative then r.neg else r)

/-- Reads a floating-point number. -/
def readFloat (text : Bytes) : Except Problem Binary64 :=
  match word? text with
  | some x => .ok x
  | none =>
    let (negative, body) := splitSign text
    let hexBody : Option Bytes := match body with
      | 48 :: x :: c :: rest => if Bytes.lowerByte x == 120 then some (c :: rest) else none
      | _ => none
    match hexBody with
    | some digits =>
      let m := readMantissa 16 0 0 false false digits
      if !m.any then .error .malformed
      else match exponentPart 112 m.rest with
        | some (some e, []) =>
          if text.contains 95 && !underscoresOk text then .error .malformed
          else
            let e := e - 4 * m.places
            assemble negative (m.value * Nat.pow 2 e.toNat) (Nat.pow 2 (-e).toNat)
        | _ => .error .malformed
    | none =>
      let m := readMantissa 10 0 0 false false body
      if !m.any then .error .malformed
      else match exponentPart 101 m.rest with
        | some (e, []) =>
          if text.contains 95 && !underscoresOk text then .error .malformed
          else
            let e := e.getD 0 - m.places
            assemble negative (m.value * Nat.pow 10 e.toNat) (Nat.pow 10 (-e).toNat)
        | _ => .error .malformed

/-- The digits of a number in a base, on top of the `value` of those before. Underscores are passed
over if they may separate digits. The first byte that is no digit or takes the number beyond 64 bits
says what is wrong. -/
def readDigits (separated : Bool) (base : Nat) : (value : Nat) → Bytes → Except Problem Nat
  | value, [] => .ok value
  | value, b :: rest =>
    if separated && b == 95 then readDigits separated base value rest
    else if isDigitOf base b then
      let value := value * base + (digitValue? b).getD 0
      if value < 2 * wordLimit then readDigits separated base value rest else .error .outOfRange
    else .error .malformed

/-- The base that the text names, and its digits. -/
def splitBase (text : Bytes) : Nat × Bytes :=
  match text with
  | 48 :: b :: rest =>
    let c := Bytes.lowerByte b
    if c == 98 && !rest.isEmpty then (2, rest)
    else if c == 111 && !rest.isEmpty then (8, rest)
    else if c == 120 && !rest.isEmpty then (16, rest)
    else (8, b :: rest)
  | _ => (10, text)

/-- Reads a number of 64 bits without a sign. The base is given, or else the number may name it and
have underscores; where these stand is looked at after all digits. -/
def readWord (base : Option Nat) (text : Bytes) : Except Problem Nat :=
  if text.isEmpty then .error .malformed
  else match base with
    | some base => readDigits false base 0 text
    | none => do
      let (base, digits) := splitBase text
      let n ← readDigits true base 0 digits
      if text.contains 95 && !underscoresOk text then .error .malformed else return n

/-- Reads a 64-bit integer. The range of the signed number is looked at last. -/
def readInt64 (base : Option Nat) (text : Bytes) : Except Problem Int64 := do
  let (negative, body) := splitSign text
  let n ← readWord base body
  let n : Int := if negative then -n else n
  if fitsWord n then return Int64.ofInt n else .error .outOfRange

end Indicial.Number
