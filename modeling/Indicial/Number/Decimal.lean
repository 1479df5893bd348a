import Indicial.Number.Binary64
import Indicial.Text.Bytes

/-!
# Decimal text of floating-point numbers

A finite number has decimal digits in two ways: the fewest that still read back as the same number,
or a given count of them. Both come from exact integer arithmetic. The text then places a point or
an exponent: positional notation for decimal exponents from -4 up to a limit, scientific notation
outside.
-/

namespace Indicial

/-- The value `digits * 10 ^ scale`. -/
structure Decimal where
  digits : Nat
  scale : Int

namespace Decimal

/-- The number of decimal digits. -/
def width (n : Nat) : Nat := (Nat.toDigits 10 n).length

/-- A finite nonzero magnitude as a fraction, with the ends of the interval of real numbers that
round to it, all over one denominator. -/
structure Interval where
  value : Nat
  low : Nat
  high : Nat
  den : Nat
  closed : Bool

/-- The interval of a finite nonzero pattern. Its ends lie halfway to the neighbouring patterns; the
lower neighbour of a power of two is nearer. The ends themselves belong to it when the last bit is
even. -/
def interval (x : Binary64) : Interval :=
  let (m, e) := x.parts
  let unit := Nat.pow 2 (e - 2).toNat
  let lowGap := if m = Binary64.hiddenBit && e ≠ -1074 then 1 else 2
  { value := 4 * m * unit, low := (4 * m - lowGap) * unit, high := (4 * m + 2) * unit,
    den := Nat.pow 2 (2 - e).toNat, closed := m % 2 = 0 }

/-- The decimal exponent `X` of a positive fraction: `10 ^ X ≤ value / den < 10 ^ (X + 1)`, for
fractions of at least `10 ^ -344`. -/
def exponent (value den : Nat) : Int :=
  if den ≤ value then (width (value / den) : Int) - 1
  else (width (value * Nat.pow 10 344 / den) : Int) - 345

/-- The candidates with `n` digits: the two multiples of `10 ^ scale` around the value, of those
that lie in the interval the nearer one, and the even one of two equally near. -/
def withDigits (i : Interval) (x : Int) (n : Nat) : Option Decimal :=
  let scale : Int := x - n + 1
  let up := Nat.pow 10 (-scale).toNat
  let unit := i.den * Nat.pow 10 scale.toNat
  let value := i.value * up
  let d := value / unit
  let inside (k : Nat) : Bool :=
    if i.closed then i.low * up ≤ k * unit && k * unit ≤ i.high * up
    else i.low * up < k * unit && k * unit < i.high * up
  match inside d, inside (d + 1) with
  | true, true => some ⟨roundDiv value unit, scale⟩
  | true, false => some ⟨d, scale⟩
  | false, true => some ⟨d + 1, scale⟩
  | false, false => none

/-- The fewest digits that read back as the pattern, the nearest to it among those. -/
def shortest (x : Binary64) : Decimal :=
  let i := interval x
  let e := exponent i.value i.den
  ((List.range 17).findSome? fun n => withDigits i e (n + 1)).getD ⟨0, 0⟩

/-- The nearest decimal with `n` digits. -/
def rounded (x : Binary64) (n : Nat) : Decimal :=
  let i := interval x
  let scale : Int := exponent i.value i.den - n + 1
  ⟨roundDiv (i.value * Nat.pow 10 (-scale).toNat) (i.den * Nat.pow 10 scale.toNat), scale⟩

/-- The digits of a decimal as text, the decimal exponent of the first of them beside it. -/
def spell (d : Decimal) : Bytes × Int :=
  let text := Bytes.ofNat d.digits
  (text, d.scale + text.length - 1)

/-- Drops the zeros at the end of a digit string. -/
def trimZeros (digits : Bytes) : Bytes := (digits.reverse.dropWhile (· == 48)).reverse

/-- Scientific notation: one digit, a point if more follow, and an exponent of two digits or more. -/
def scientific (digits : Bytes) (x : Int) : Bytes :=
  let mantissa := match digits with
    | [] => [48]
    | [d] => [d]
    | d :: rest => d :: 46 :: rest
  let sign : UInt8 := if x < 0 then 45 else 43
  let size := Bytes.ofNat x.natAbs
  mantissa ++ [101, sign] ++ (if size.length < 2 then 48 :: size else size)

/-- Positional notation of digits whose first one has the weight `10 ^ x`. -/
def positional (digits : Bytes) (x : Int) : Bytes :=
  if x < 0 then
    [48, 46] ++ List.replicate ((-x).toNat - 1) 48 ++ digits
  else
    let whole := x.toNat + 1
    let fraction := digits.drop whole
    digits.take whole ++ List.replicate (whole - digits.length) 48
      ++ (if fraction.isEmpty then [] else 46 :: fraction)

/-- Chooses between the notations: positional for exponents from -4 up to 5. -/
def general (digits : Bytes) (x : Int) : Bytes :=
  if x < -4 || 6 ≤ x then scientific digits x else positional digits x

end Decimal

namespace Binary64

/-- The text of a number that has no digits, if it is one. -/
def special (x : Binary64) : Option Bytes :=
  if x.isNaN then some (Bytes.ofString "NaN")
  else if x.isInfinite then some (Bytes.ofString (if x.signed then "-Inf" else "+Inf"))
  else none

/-- A minus sign in front of the text of a negative number. -/
def withSign (x : Binary64) (text : Bytes) : Bytes := if x.signed then 45 :: text else text

/-- The fewest digits that read back, in positional notation for exponents from -4 to 5. -/
def toBytes (x : Binary64) : Bytes :=
  match x.special with
  | some text => text
  | none =>
    if x.isZero then x.withSign [48]
    else
      let (digits, e) := (Decimal.shortest x).spell
      let digits' := Decimal.trimZeros digits
      x.withSign (Decimal.general digits' e)

/-- Scientific notation with `n` digits. -/
def toScientific (n : Nat) (x : Binary64) : Bytes :=
  match x.special with
  | some text => text
  | none =>
    if x.isZero then x.withSign (Decimal.scientific (List.replicate n 48) 0)
    else
      let (digits, e) := (Decimal.rounded x n).spell
      x.withSign (Decimal.scientific (digits.take n) e)

/-- At most six digits, without zeros at the end, in positional notation for exponents from -4 to 5. -/
def toSixDigits (x : Binary64) : Bytes :=
  match x.special with
  | some text => text
  | none =>
    if x.isZero then x.withSign [48]
    else
      let (digits, e) := (Decimal.rounded x 6).spell
      x.withSign (Decimal.general (Decimal.trimZeros digits) e)

end Binary64

end Indicial
