import Indicial.Expr.Basic

/-!
# Building expressions

The checked ways of making an expression. Each refuses operands that break the summation convention
or labels that do not fit, and an expression made only by these functions keeps their rules at every
node: its free labels are free of repetition, both operands of a sum have the same free labels, a
relabelling has as many targets as its operand has free labels, powers and functions take operands
of rank zero, and marks for derivatives are not nested directly.
-/

namespace Indicial.Expr

/-- The sum of two expressions with the same free labels, in any order. -/
def mkSum (l r : Expr) : Except Fault Expr :=
  if Index.isPermutation l.outer r.outer then .ok (sum l r)
  else .error (.incompatible (Bytes.ofString "sum") l.outer r.outer)

/-- The difference of two expressions with the same free labels, in any order. -/
def mkDifference (l r : Expr) : Except Fault Expr :=
  if Index.isPermutation l.outer r.outer then .ok (difference l r)
  else .error (.incompatible (Bytes.ofString "difference") l.outer r.outer)

/-- The free labels of a product or ratio, which have to fit an index. -/
def productLabels (l r : Expr) : Except Fault Index :=
  Index.concat (Index.minus l.outer r.outer) (Index.minus r.outer l.outer)

/-- The product, in which labels of both operands are summed. -/
def mkProduct (l r : Expr) : Except Fault Expr :=
  match productLabels l r with
  | .ok _ => .ok (product l r)
  | .error f => .error f

/-- The ratio, whose denominator must not be a literal zero. -/
def mkRatio (l r : Expr) : Except Fault Expr :=
  if r.isZero then .error (.zeroDenominator l.toBytes)
  else match productLabels l r with
    | .ok _ => .ok (ratio l r)
    | .error f => .error f

def mkNegate (e : Expr) : Except Fault Expr := .ok (negate e)

def mkPower (base exponent : Expr) : Except Fault Expr :=
  if !base.outer.isEmpty then .error (.powerBase base.outer)
  else if !exponent.outer.isEmpty then .error (.powerExponent exponent.outer)
  else .ok (power base exponent)

def mkApply (f : Func) (e : Expr) : Except Fault Expr :=
  if e.outer.isEmpty then .ok (apply f e)
  else .error (.functionArgument (Bytes.ofString f.name) e.outer)

/-- Renames the free labels of `e` in their order to those of `to`. -/
def mkBind (e : Expr) (target : Index) : Except Fault Expr :=
  if target.length = e.outer.length then .ok (bind e target) else .error (.bindCount e.outer target)

/-- Marks a derivative; the mark of a marked expression extends its direction. -/
def mkDerivative (e : Expr) (along : Index) : Except Fault Expr := do
  if along.isEmpty then throw .emptyDirection
  match e with
  | derivative inner first => do
    let whole ← Index.concat first along
    let _ ← Index.concat inner.outer whole
    return derivative inner whole
  | e => do
    let _ ← Index.concat e.outer along
    return derivative e along

/-- A number without labels. -/
def number (value : Literal) : Expr := literal value []

/-- A number over labels that do not repeat. -/
def mkBroadcast (value : Literal) (labels : Index) : Except Fault Expr :=
  if (Index.repeated labels).isEmpty then .ok (literal value labels)
  else .error (.broadcastRepeated labels)

/-- Zero over labels. -/
def mkZero (labels : Index) : Except Fault Expr := mkBroadcast (Literal.ofInt 0) labels

/-- The number one. -/
def one : Expr := number (Literal.ofInt 1)

/-- A tensor with at least as many labels as its order. -/
def mkLeaf (symbol : Tensor) (labels : Index) : Except Fault Expr :=
  if symbol.order ≤ labels.length then .ok (tensor symbol labels)
  else .error (.leafLabels symbol.name symbol.order labels)

/-- A tensor of order zero without labels. -/
def mkReference (symbol : Tensor) : Except Fault Expr :=
  if symbol.order = 0 then mkLeaf symbol [] else .error (.tensorBare symbol.name symbol.order)

def mkDelta (labels : Index) : Except Fault Expr :=
  if labels.length = 2 then .ok (delta labels) else .error (.deltaLabels labels)

def mkEpsilon (labels : Index) : Except Fault Expr :=
  if 2 ≤ labels.length then .ok (epsilon labels) else .error (.epsilonLabels labels)

/-- The terms added from left to right. -/
def addAll : List Expr → Except Fault Expr
  | [] => .error .noTerms
  | e :: rest => rest.foldlM mkSum e

/-- The factors multiplied from left to right. -/
def multiplyAll : List Expr → Except Fault Expr
  | [] => .error .noFactors
  | e :: rest => rest.foldlM mkProduct e

/-- The second power. -/
def mkSquare (e : Expr) : Except Fault Expr := mkPower e (number (Literal.ofInt 2))

/-- The average over every ordering of the free labels. -/
def symmetrize (e : Expr) : Except Fault Expr :=
  if e.rank < 2 then .ok e
  else do
    let orders := Index.permutations e.outer
    let terms ← orders.mapM fun labels => if labels = e.outer then .ok e else mkBind e labels
    let share ← Literal.fraction 1 orders.length
    let total ← addAll terms
    mkProduct (number share) total

/-- Carries the renaming of `from_` to `to`, label by label, over to a reordering of `from_`. -/
def relabel (source target permuted : Index) : Except Fault Index :=
  if Index.isPermutation permuted source then
    permuted.mapM fun c => Index.get target (Index.position source c)
  else .error (.bindChanged source permuted)

/-- A node of the same kind over a new operand in place of its only or left one, and over a new right
one if it has two. Leaves stay as they are. A relabelling maps the same labels of its operand to the
same targets as before. -/
def rebuild (n : Expr) (l r : Expr) : Except Fault Expr :=
  match n with
  | sum .. => mkSum l r
  | difference .. => mkDifference l r
  | product .. => mkProduct l r
  | ratio .. => mkRatio l r
  | power .. => mkPower l r
  | negate _ => mkNegate l
  | apply f _ => mkApply f l
  | bind e target => do mkBind l (← relabel e.outer target l.outer)
  | derivative _ along => mkDerivative l along
  | leaf => .ok leaf

end Indicial.Expr
