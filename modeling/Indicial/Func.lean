import Indicial.Fault
import Indicial.Number.Binary64
import Indicial.Number.Exponential
import Indicial.Number.Power

/-!
# Elementary functions and arithmetic

The nine scalar functions of the calculus with their names and codes, and the operations that an
evaluation needs from its numbers. Expressions and programs are evaluated over any type with these
operations; `Arith.float` is the one that runs.
-/

namespace Indicial

/-- An elementary function of one variable. -/
inductive Func where
  | sqrt | exp | log | sin | cos | tan | sinh | cosh | tanh
deriving DecidableEq, Inhabited

namespace Func

/-- All functions, in the order of their codes. -/
def all : List Func := [.sqrt, .exp, .log, .sin, .cos, .tan, .sinh, .cosh, .tanh]

/-- The name by which expressions call the function. -/
def name : Func → String
  | .sqrt => "sqrt" | .exp => "exp" | .log => "log" | .sin => "sin" | .cos => "cos"
  | .tan => "tan" | .sinh => "sinh" | .cosh => "cosh" | .tanh => "tanh"

/-- The code that stands for the function in programs. Zero stands for none. -/
def code : Func → UInt8
  | .sqrt => 1 | .exp => 2 | .log => 3 | .sin => 4 | .cos => 5
  | .tan => 6 | .sinh => 7 | .cosh => 8 | .tanh => 9

/-- The function with a code. -/
def ofCode? (c : UInt8) : Option Func := all.find? fun f => f.code == c

/-- The function with a code; every other code is a fault. -/
def ofCode (c : UInt8) : Except Fault Func :=
  match ofCode? c with
  | some f => .ok f
  | none => .error (.unknownFunction c)

/-- The function with a name. -/
def ofName? (bs : Bytes) : Option Func := all.find? fun f => Bytes.ofString f.name == bs

/-- The name of a code, also of those that stand for no function. -/
def nameOfCode (c : UInt8) : String :=
  match ofCode? c with
  | some f => f.name
  | none => if c = 0 then "none" else "unknown"

/-- Half the exponential: what the hyperbolic functions are for large arguments. They overflow where
the exponential does. -/
def halfExp (x : Float) : Float := Number.exp x * 0.5

/-- The value of the function at a machine number. -/
def apply : Func → Float → Float
  | .sqrt, x => x.sqrt | .exp, x => Number.exp x | .log, x => Number.log x
  | .sin, x => x.sin | .cos, x => x.cos | .tan, x => x.tan
  | .sinh, x => if 21.0 < x then halfExp x else if x < -21.0 then -halfExp (-x) else x.sinh
  | .cosh, x => if 21.0 < x.abs then halfExp x.abs else x.cosh
  | .tanh, x => x.tanh

/-- The value of the function at a not-a-number. It passes through, except that the cosine and the
logarithm of a signed one give their own, and the hyperbolic cosine forgets the sign. -/
def applyNaN (f : Func) (x : Binary64) : Binary64 :=
  match f with
  | .cos => Binary64.nan
  | .log => if x.signed then Binary64.nan else x.quiet
  | .cosh => (if x.signed then x.neg else x).quiet
  | _ => x.quiet

/-- The value of the function at a pattern. The root of a negative number is an invalid operation of
arithmetic, all other invalid arguments are refused by the function itself. -/
def applyBits (f : Func) (x : Binary64) : Binary64 :=
  if x.isNaN then f.applyNaN x
  else
    let r := Binary64.ofFloat (f.apply x.toFloat)
    if r.isNaN then (if f = .sqrt then Binary64.indefinite else Binary64.nan) else r

end Func

namespace Binary64

/-- `x` to the power `y`. The first power is the base itself, even if that is not a number. The power
one half is a root, so that a negative base makes it an invalid operation of arithmetic; all other
invalid operands are refused by the power itself. -/
def pow (x y : Binary64) : Binary64 :=
  let r := ofFloat (Number.power x.toFloat y.toFloat)
  if !r.isNaN then r
  else if y = one then x
  else if !x.isNaN && y.toFloat.abs == 0.5 then indefinite
  else nan

end Binary64

/-- The operations that an evaluation needs from its numbers. No law is assumed of them. -/
structure Arith (α : Type) where
  ofInt : Int → α
  add : α → α → α
  sub : α → α → α
  mul : α → α → α
  div : α → α → α
  neg : α → α
  pow : α → α → α
  apply : Func → α → α

namespace Arith

/-- The zero that accumulations start from. -/
def zero {α : Type} (A : Arith α) : α := A.ofInt 0

/-- Machine arithmetic. -/
def float : Arith Float where
  ofInt n := Float.ofInt n
  add := (· + ·)
  sub := (· - ·)
  mul := (· * ·)
  div := (· / ·)
  neg x := -x
  pow := Number.power
  apply := Func.apply

end Arith

end Indicial
