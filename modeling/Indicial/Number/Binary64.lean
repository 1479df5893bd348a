import Indicial.Number.Rounding

/-!
# Binary floating point by its bits

A `Binary64` is a 64-bit pattern of the binary interchange format: a sign, eleven bits of exponent
and fifty-two bits of fraction. Classification, equality and negation are read off the pattern;
arithmetic goes through the machine's floating point. A pattern keeps what arithmetic alone cannot
tell apart, the sign and the payload of a not-a-number, because program files carry patterns.
-/

namespace Indicial

/-- A 64-bit pattern of the binary interchange format. -/
structure Binary64 where
  bits : UInt64
deriving DecidableEq, Inhabited

namespace Binary64

/-- The pattern of a machine number. -/
def ofFloat (x : Float) : Binary64 := ⟨x.toBits⟩

/-- The machine number of a pattern. -/
def toFloat (x : Binary64) : Float := Float.ofBits x.bits

/-- The pattern without its sign. -/
def magnitude (x : Binary64) : Nat := x.bits.toNat % 0x8000000000000000

/-- Whether the sign bit is set. -/
def signed (x : Binary64) : Bool := 0x8000000000000000 ≤ x.bits.toNat

/-- The weight of the leading bit of a normal number, `2 ^ 52`. The pattern leaves that bit out. -/
def hiddenBit : Nat := 0x10000000000000

/-- The magnitude of both infinities: all exponent bits set and no fraction. -/
def infiniteMagnitude : Nat := 2047 * hiddenBit

/-- Not a number: all exponent bits set and a fraction. -/
def isNaN (x : Binary64) : Bool := infiniteMagnitude < x.magnitude

/-- One of the two infinities. -/
def isInfinite (x : Binary64) : Bool := x.magnitude = infiniteMagnitude

/-- One of the two zeros. -/
def isZero (x : Binary64) : Bool := x.magnitude = 0

/-- The positive zero. -/
def zero : Binary64 := ⟨0⟩

/-- The number one. -/
def one : Binary64 := ⟨0x3FF0000000000000⟩

/-- Positive infinity. -/
def infinity : Binary64 := ⟨0x7FF0000000000000⟩

/-- The not-a-number that reading and the elementary functions produce. -/
def nan : Binary64 := ⟨0x7FF8000000000001⟩

/-- The not-a-number that an invalid arithmetic operation produces. -/
def indefinite : Binary64 := ⟨0xFFF8000000000000⟩

/-- A not-a-number is made quiet when it passes through an operation. -/
def quiet (x : Binary64) : Binary64 := ⟨x.bits ||| 0x0008000000000000⟩

/-- Turns the sign around, also that of zero and of a not-a-number. -/
def neg (x : Binary64) : Binary64 := ⟨x.bits ^^^ 0x8000000000000000⟩

/-- Numeric equality, in which both zeros are equal and all not-a-numbers are equal. -/
def same (x y : Binary64) : Bool :=
  x.bits == y.bits || x.isZero && y.isZero || x.isNaN && y.isNaN

/-- An arithmetic operation on patterns: a not-a-number operand passes through, the left one first,
and an operation without a numeric result gives the indefinite pattern. -/
def lift₂ (op : Float → Float → Float) (x y : Binary64) : Binary64 :=
  if x.isNaN then x.quiet
  else if y.isNaN then y.quiet
  else
    let r := ofFloat (op x.toFloat y.toFloat)
    if r.isNaN then indefinite else r

def add : Binary64 → Binary64 → Binary64 := lift₂ (· + ·)
def sub : Binary64 → Binary64 → Binary64 := lift₂ (· - ·)
def mul : Binary64 → Binary64 → Binary64 := lift₂ (· * ·)
def div : Binary64 → Binary64 → Binary64 := lift₂ (· / ·)

/-- The nonnegative pattern nearest to `num / den`, a tie to the even pattern. A quotient beyond the
largest finite pattern gives infinity.

Writing the quotient as `m * 2 ^ e` with `m < 2 ^ 53` and `-1074 ≤ e`, the pattern is
`(e + 1074) * 2 ^ 52 + m`: the leading bit of a normal `m` carries into the exponent field, and so
does a round up to `2 ^ 53`. -/
def nearest (num den : Nat) : Binary64 :=
  if num = 0 then zero
  else
    let high : Int := (Nat.log2 num : Int) - Nat.log2 den - 52
    let up (e : Int) : Nat := num * Nat.pow 2 (-e).toNat
    let down (e : Int) : Nat := den * Nat.pow 2 e.toNat
    let fits (e : Int) : Bool := up e < down e * hiddenBit
    let e : Int := max (-1074) (if fits high then high - 1 else high)
    let m := roundDiv (up e) (down e)
    let pattern := (e + 1074).toNat * hiddenBit + m
    if pattern < infiniteMagnitude then ⟨pattern.toUInt64⟩ else infinity

/-- The pattern nearest to a rational number. -/
def ofRat (q : Rat) : Binary64 :=
  let r := nearest q.num.natAbs q.den
  if q.num < 0 then r.neg else r

/-- The pattern nearest to an integer. -/
def ofInt (n : Int) : Binary64 := ofRat n

/-- A finite magnitude as `m * 2 ^ e`. -/
def parts (x : Binary64) : Nat × Int :=
  let field : Nat := x.magnitude / hiddenBit
  let fraction : Nat := x.magnitude % hiddenBit
  if field = 0 then (fraction, -1074) else (fraction + hiddenBit, (field : Int) - 1075)

end Binary64

end Indicial
