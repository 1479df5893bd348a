import Indicial.Fault
import Indicial.Func
import Indicial.Number.Decimal
import Indicial.Number.Word

/-!
# Literals

A literal is an exact rational number or a floating-point one. Arithmetic between rationals stays
exact; as soon as one operand is floating, the result is.
-/

namespace Indicial

/-- A number written in an expression. -/
inductive Literal where
  | exact (q : Rat)
  | float (x : Binary64)
deriving DecidableEq, Inhabited

namespace Literal

/-- An exact integer. -/
def ofInt (n : Int) : Literal := .exact n

/-- The fraction `p / q`, refused when `q` is zero. -/
def fraction (p q : Int) : Except Fault Literal :=
  if q = 0 then .error (.zeroRational p) else .ok (.exact ((p : Rat) / (q : Rat)))

/-- Whether the literal is floating. -/
def isFloat : Literal → Bool
  | .exact _ => false
  | .float _ => true

/-- The nearest floating-point number. -/
def toBinary64 : Literal → Binary64
  | .exact q => Binary64.ofRat q
  | .float x => x

/-- Whether the literal equals zero. -/
def isZero : Literal → Bool
  | .exact q => q == 0
  | .float x => x.isZero

/-- Whether the literal equals one. -/
def isOne : Literal → Bool
  | .exact q => q == 1
  | .float x => x == Binary64.one

/-- Whether the literal is an exact integer. -/
def isInteger : Literal → Bool
  | .exact q => q.den == 1
  | .float _ => false

/-- Equality of values; an exact literal never equals a floating one. -/
def same : Literal → Literal → Bool
  | .exact p, .exact q => p == q
  | .float x, .float y => x.same y
  | _, _ => false

/-- The text of a literal: an integer, a fraction in lowest terms, or the shortest decimal. -/
def toBytes : Literal → Bytes
  | .exact q =>
    if q.den = 1 then Bytes.ofInt q.num else Bytes.ofInt q.num ++ "/" ++ Bytes.ofNat q.den
  | .float x => x.toBytes

def add : Literal → Literal → Literal
  | .exact p, .exact q => .exact (p + q)
  | a, b => .float (a.toBinary64.add b.toBinary64)

def sub : Literal → Literal → Literal
  | .exact p, .exact q => .exact (p - q)
  | a, b => .float (a.toBinary64.sub b.toBinary64)

def mul : Literal → Literal → Literal
  | .exact p, .exact q => .exact (p * q)
  | a, b => .float (a.toBinary64.mul b.toBinary64)

/-- The quotient, refused when the divisor equals zero. -/
def div (a b : Literal) : Except Fault Literal :=
  if b.isZero then .error (.literalDivision a.toBytes)
  else match a, b with
    | .exact p, .exact q => .ok (.exact (p / q))
    | a, b => .ok (.float (a.toBinary64.div b.toBinary64))

def neg : Literal → Literal
  | .exact q => .exact (-q)
  | .float x => .float x.neg

/-- The largest size of an exponent for which powers are exact. -/
def maxExactExponent : Nat := 64

/-- A rational number to an integer power. -/
def exactPower (q : Rat) : Int → Rat
  | .ofNat k => q ^ k
  | .negSucc k => (q ^ (k + 1))⁻¹

/-- The power. An exact base to an integer exponent of size at most 64 stays exact, and an exact zero
has no negative power. -/
def pow (a b : Literal) : Except Fault Literal :=
  match a, b with
  | .exact p, .exact q =>
    if q.den = 1 && Number.fitsWord q.num then
      if q.num < 0 && p == 0 then .error (.zeroToNegative q.num)
      else if q.num.natAbs ≤ maxExactExponent then .ok (.exact (exactPower p q.num))
      else .ok (.float (a.toBinary64.pow b.toBinary64))
    else .ok (.float (a.toBinary64.pow b.toBinary64))
  | a, b => .ok (.float (a.toBinary64.pow b.toBinary64))

end Literal

end Indicial
