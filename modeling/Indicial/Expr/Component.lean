import Indicial.Expr.Derivative
import Indicial.Expr.Simplify
import Indicial.Layout
import Indicial.Odometer

/-!
# Components of tensor expressions

For a fixed dimension every label takes the values below it, and an expression of rank `r` stands for
`dim ^ r` scalar expressions, one for each assignment of its free labels. `eval` finds the scalar
expression under an assignment: every node that sums over labels becomes a sum over their values, in
row-major order and added from the left. `components` lists all of them, simplified.
-/

namespace Indicial

/-- Values of some labels. -/
abbrev Assignment := Label → Option Nat

namespace Assignment

/-- No label has a value. -/
def empty : Assignment := fun _ => none

/-- The label has this value from now on. -/
def set (e : Assignment) (c : Label) (v : Nat) : Assignment := fun d => if d == c then some v else e d

/-- The labels have these values from now on; the last of a repeated label counts. -/
def setAll (e : Assignment) : Index → List Nat → Assignment
  | c :: cs, v :: vs => setAll (e.set c v) cs vs
  | _, _ => e

/-- The value of a label that has to have one. -/
def value (e : Assignment) (c : Label) : Except Fault Nat :=
  match e c with
  | some v => .ok v
  | none => .error (.unboundLabel c)

end Assignment

namespace Expr

/-- The terms under every assignment of `labels`, added from left to right. -/
def sumOver (dim : Int64) (labels : Index) (e : Assignment)
    (term : Assignment → Except Fault Expr) : Except Fault Expr := do
  match ← Odometer.run labels.length dim.toInt with
  | [] => .error (.radixNotPositive dim.toInt)
  | first :: rest =>
    rest.foldlM (fun total digits => do mkSum total (← term (e.setAll labels digits)))
      (← term (e.setAll labels first))

/-- The scalar that a tensor leaf reads under an assignment: its first labels pick the component, the
others are directions of derivatives. -/
def reference (constant : Constancy) (symbol : Tensor) (labels : Index) (e : Assignment) :
    Except Fault ScalarRef := do
  let component ← (labels.take symbol.order).foldlM
    (fun (c : Coord) label => do c.push (← e.value label)) Coord.empty
  let derivs ← (labels.drop symbol.order).foldlM
    (fun (c : Coord) label => do c.push (← e.value label)) Coord.empty
  ScalarRef.make symbol component derivs (constant symbol)

/-- The assignment of the operand of a relabelling, in which each label of `from_` has the value of its
target. -/
def throughBind (e : Assignment) : (source target : Index) → Assignment → Except Fault Assignment
  | c :: cs, d :: ds, child => do throughBind e cs ds (child.set c (← e.value d))
  | _, _, child => .ok child

/-- The scalar expression of one component. -/
def eval (constant : Constancy) (dim : Int64) : Expr → Assignment → Except Fault Expr
  | sum l r, e => do mkSum (← eval constant dim l e) (← eval constant dim r e)
  | difference l r, e => do mkDifference (← eval constant dim l e) (← eval constant dim r e)
  | power l r, e => do mkPower (← eval constant dim l e) (← eval constant dim r e)
  | negate a, e => do mkNegate (← eval constant dim a e)
  | apply f a, e => do mkApply f (← eval constant dim a e)
  | product l r, e =>
    sumOver dim (Index.intersect l.outer r.outer) e fun e' => do
      mkProduct (← eval constant dim l e') (← eval constant dim r e')
  | ratio l r, e =>
    sumOver dim (Index.intersect l.outer r.outer) e fun e' => do
      mkRatio (← eval constant dim l e') (← eval constant dim r e')
  | bind a target, e =>
    sumOver dim (Index.repeated target) e fun e' => do
      eval constant dim a (← throughBind e' a.outer target Assignment.empty)
  | tensor symbol labels, e =>
    sumOver dim (Index.repeated labels) e fun e' => do
      return scalar (← reference constant symbol labels e')
  | delta labels, e =>
    sumOver dim (Index.repeated labels) e fun e' => do
      let values ← labels.mapM e'.value
      return number (Literal.ofInt (if values.eraseDups.length ≤ 1 then 1 else 0))
  | epsilon labels, e => do
    if (labels.length : Int) ≠ dim.toInt then throw (.epsilonDimension labels dim.toInt)
    sumOver dim (Index.repeated labels) e fun e' => do
      let values ← labels.mapM e'.value
      return number (Literal.ofInt (Odometer.permutationSign (values.map Int.ofNat)))
  | literal value _, _ => .ok (number value)
  | scalar ref, _ => .ok (scalar ref)
  | derivative a along, _ =>
    .error (.componentsOfNode (Bytes.ofString Kind.derivative.name) (derivative a along).toBytes)

/-- The simplified scalar expression of every component, in row-major order over `labels`, which are
the free labels in any order. -/
def components (constant : Constancy) (dim : Int64) (n : Expr) (labels : Index) :
    Except Fault (List Expr) := do
  if !Index.isPermutation labels n.outer then
    throw (.componentLabels n.toBytes labels n.outer)
  let assignments ← Odometer.run labels.length dim.toInt
  assignments.mapM fun digits => do
    simplify (← eval constant dim n (Assignment.empty.setAll labels digits))

/-- The scalars that a tensor leaf reads, one for each assignment of its distinct labels in row-major
order. -/
def leafReferences (constant : Constancy) (dim : Int64) : Expr → Except Fault (List ScalarRef)
  | tensor symbol labels => do
    let distinct := Index.unique labels
    let assignments ← Odometer.run distinct.length dim.toInt
    assignments.mapM fun digits =>
      reference constant symbol labels (Assignment.empty.setAll distinct digits)
  | n => .error (.leafReferences (Bytes.ofString n.kind.name))

end Expr

namespace Index

/-- The weight that the place of each label of `from_` has in row-major order over `to`. -/
def weights (dim : Int64) (source target : Index) : List Int64 :=
  source.map fun c => Layout.power dim (Int64.ofInt (target.length - 1 - position target c))

/-- For every component of a window over `from_`, in row-major order, `base` plus its row-major
position over `to`. -/
def componentMap (source target : Index) (dim base : Int64) : Except Fault (List Int32) := do
  if !isPermutation source target then throw (.componentMap source target)
  let places := weights dim source target
  let assignments ← Odometer.run source.length dim.toInt
  return assignments.map fun digits =>
    (digits.zipWith (fun v w => Int64.ofNat v * w) places |>.foldl (· + ·) base).toInt32

end Index

end Indicial
