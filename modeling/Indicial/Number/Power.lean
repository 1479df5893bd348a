import Indicial.Number.Exponential

/-!
# Powers of floating-point numbers

A power with a finite base and exponent is computed by repeated squaring of the base's fraction,
its binary exponent being carried along separately; what is left of a fractional exponent goes
through the exponential and the logarithm. Zeros, infinities and not-a-numbers follow the usual
conventions.
-/

namespace Indicial.Number

/-- Multiplies in the powers `x ^ 1, x ^ 2, x ^ 4, …` that the bits of `n` select. The running value is
`a * 2 ^ ae` and the current power `x * 2 ^ xe` with the fraction `x` kept at least one half. -/
def squaring : (fuel n : Nat) → (a : Float) → (ae : Int) → (x : Float) → (xe : Int) → Float × Int
  | 0, _, a, ae, _, _ => (a, ae)
  | fuel + 1, n, a, ae, x, xe =>
    if n = 0 then (a, ae)
    else if xe < -4096 || 4096 < xe then (a, ae + xe)
    else
      let (a, ae) := if n % 2 = 1 then (a * x, ae + xe) else (a, ae)
      let square := x * x
      if square < 0.5 then squaring fuel (n / 2) a ae (square + square) (2 * xe - 1)
      else squaring fuel (n / 2) a ae square (2 * xe)

/-- The power of a finite nonzero base to a finite exponent other than zero and one. -/
def finitePower (x y : Float) : Float :=
  let size := y.abs
  let whole := size.floor
  let fraction := size - whole
  if fraction != 0 && x < 0 then 0.0 / 0.0
  else if 9223372036854775808.0 ≤ whole then
    if x == -1 then 1
    else if (x.abs < 1) == (0 < y) then 0 else 1.0 / 0.0
  else
    let (a, whole) :=
      if fraction == 0 then (1, whole)
      else if 0.5 < fraction then (exp ((fraction - 1) * log x), whole + 1)
      else (exp (fraction * log x), whole)
    let (m, e) := x.frExp
    let (a, ae) := squaring 64 whole.toUInt64.toNat a 0 m e
    if y < 0 then (1 / a).scaleB (-ae) else a.scaleB ae

/-- `x` to the power `y`. -/
def power (x y : Float) : Float :=
  if y == 0 || x == 1 then 1
  else if y == 1 then x
  else if !x.isFinite || !y.isFinite || x == 0 then Float.pow x y
  else if y == 0.5 then x.sqrt
  else if y == -0.5 then 1 / x.sqrt
  else finitePower x y

end Indicial.Number
