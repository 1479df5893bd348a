/-!
# Exponentials and logarithms of floating-point numbers

Both functions go through the nearest power of two. The exponential is infinite as soon as that power
is, somewhat before its value is too large for a number. The logarithm reads the power off the exponent
field of the pattern and takes the fraction field for the rest, with its leading one understood. So
below the smallest normal number, where there is no such one, it follows the pattern and not the value.
-/

namespace Indicial.Number

/-- The logarithm of Euler's number to the base two. -/
def log2e : Float := 1.4426950408889634

/-- The exponential. The power of two nearest to it must not exceed `2 ^ 1023`. -/
def exp (x : Float) : Float := if 1023.5 ≤ x * log2e then 1.0 / 0.0 else x.exp

/-- The logarithm of two, as far as few bits go. -/
def ln2High : Float := 6.93147180369123816490e-01

/-- What is left of the logarithm of two. -/
def ln2Low : Float := 1.90821492927058770002e-10

/-- The logarithm of `2 ^ k * (1 + f)`, where `1 + f` lies between the square roots of a half and of
two. With `s = f / (2 + f)` the logarithm of `1 + f` is that of `1 + s` less that of `1 - s`, which is
`2 * s` and `s` times an even series in `s`; the terms of odd and of even place are summed apart. -/
def logOfParts (k f : Float) : Float :=
  let s := f / (2 + f)
  let s2 := s * s
  let s4 := s2 * s2
  let odd := s2 * (6.666666666666735130e-01 + s4 * (2.857142874366239149e-01
    + s4 * (1.818357216161805012e-01 + s4 * 1.479819860511658591e-01)))
  let even := s4 * (3.999999999940941908e-01 + s4 * (2.222219843214978396e-01
    + s4 * 1.531383769920937332e-01))
  let half := 0.5 * f * f
  k * ln2High - ((half - (s * (half + (odd + even)) + k * ln2Low)) - f)

/-- The square root of a half. -/
def halfRoot : Float := 7.07106781186547524401e-01

/-- The logarithm of a positive finite number by its pattern: a fraction between one half and one, and
a power of two, which are shifted so that the fraction lies around one. -/
def logOfBits (bits : UInt64) : Float :=
  let fraction := Float.ofBits (bits &&& 0x000FFFFFFFFFFFFF ||| 0x3FE0000000000000)
  let k := Float.ofInt ((bits >>> 52).toNat - 1022)
  if fraction ≤ halfRoot then logOfParts (k - 1) (fraction * 2 - 1)
  else logOfParts k (fraction - 1)

/-- The logarithm. -/
def log (x : Float) : Float :=
  if x.isFinite && 0 < x then logOfBits x.toBits else x.log

end Indicial.Number
