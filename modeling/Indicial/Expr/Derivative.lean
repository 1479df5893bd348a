import Indicial.Expr.Build

/-!
# Symbolic differentiation

Derivatives are taken along one label at a time. A subexpression whose tensors are all constant has
the derivative zero and is not looked into. The sum, product, quotient, power and chain rules follow
calculus; two things need care in index notation.

* When a node sums over the very label of the direction, that label is first renamed, inside this
  node only, to one that occurs nowhere in it. Otherwise the direction would be captured.
* A relabelled expression is differentiated along a fresh label, which the relabelling then takes to
  the direction.

`differentiate` recurses along the expression. Its only other need is what to do at a mark for a
derivative: `expand` replaces every mark from the inside out and so never differentiates one, while
`diff` extends a mark unless the direction repeats one of its labels, and then expands it first.
-/

namespace Indicial.Expr

/-- Which tensors are constant. -/
abbrev Constancy := Tensor → Bool

/-- A label that occurs nowhere in `e` and is not `k`. -/
def freshLabel (e : Expr) (k : Label) : Except Fault Label := Index.fresh (k :: e.allLabels)

/-- The derivative of a constant expression. -/
def zeroDerivative (e : Expr) (k : Label) : Except Fault Expr := do
  mkZero (Index.exclusive (← Index.concat e.outer [k]))

/-- The derivative of a function at an expression, the chain rule's factor apart. -/
def functionDerivative (f : Func) (u : Expr) : Except Fault Expr :=
  match f with
  | .sin => mkApply .cos u
  | .cos => do mkNegate (← mkApply .sin u)
  | .tan => do mkSum one (← mkSquare (← mkApply .tan u))
  | .exp => mkApply .exp u
  | .log => mkRatio one u
  | .sqrt => do mkRatio one (← mkProduct (number (Literal.ofInt 2)) (← mkApply .sqrt u))
  | .sinh => mkApply .cosh u
  | .cosh => mkApply .sinh u
  | .tanh => do mkDifference one (← mkSquare (← mkApply .tanh u))

/-- An operand of a rule: the expression, whether it is constant, and its derivative. -/
structure Operand where
  expr : Expr
  constant : Bool
  derivative : Unit → Except Fault Expr

/-- The product rule. -/
def productRule (u v : Operand) : Except Fault Expr := do
  if u.constant then
    mkProduct u.expr (← v.derivative ())
  else if v.constant then
    mkProduct (← u.derivative ()) v.expr
  else
    let first ← mkProduct (← u.derivative ()) v.expr
    let second ← mkProduct u.expr (← v.derivative ())
    mkSum first second

/-- The quotient rule. -/
def quotientRule (u v : Operand) : Except Fault Expr := do
  if v.constant then
    mkRatio (← u.derivative ()) v.expr
  else
    let numerator ←
      if u.constant then
        mkNegate (← mkProduct u.expr (← v.derivative ()))
      else do
        let first ← mkProduct (← u.derivative ()) v.expr
        let second ← mkProduct u.expr (← v.derivative ())
        mkDifference first second
    mkRatio numerator (← mkPower v.expr (number (Literal.ofInt 2)))

/-- The rule for sums and differences. -/
def additiveRule (isSum : Bool) (u v : Operand) : Except Fault Expr := do
  if u.constant then
    let dv ← v.derivative ()
    if isSum then return dv else mkNegate dv
  else if v.constant then
    u.derivative ()
  else
    let du ← u.derivative ()
    let dv ← v.derivative ()
    if isSum then mkSum du dv else mkDifference du dv

/-- The derivative of `e` with its free labels renamed to `to`, along a label `k` that the renaming
does not sum over. `du` is the derivative of `e`, taken along a fresh label. -/
def bindRule (e : Expr) (target : Index) (k : Label) (du : Label → Except Fault Expr) :
    Except Fault Expr := do
  let fresh ← freshLabel (bind e target) k
  let d ← du fresh
  let labels ← d.outer.mapM fun c =>
    if c == fresh then .ok k
    else Index.get target (Index.position e.outer c)
  mkBind d labels

/-- A factor in which the summed label `k` was renamed, and its derivative along `k`. -/
def renamedOperand (constant : Constancy) (e : Expr) (target : Index) (k : Label)
    (du : Label → Except Fault Expr) : Operand :=
  let whole := bind e target
  let isConstant := e.dependsOnly constant
  { expr := whole
    constant := isConstant
    derivative := fun _ => if isConstant then zeroDerivative whole k else bindRule e target k du }

/-- The operands of a product or ratio for a derivative along `k`. If both hold the label `k`, so that
it is summed, it is renamed in both. -/
def factors (constant : Constancy) (n l r : Expr) (k : Label) (dl dr : Label → Except Fault Expr) :
    Except Fault (Operand × Operand) := do
  if n.contracted.contains k then
    let fresh ← freshLabel n k
    let l' ← mkBind l (Index.rename l.outer k fresh)
    let r' ← mkBind r (Index.rename r.outer k fresh)
    let _ ← rebuild n l' r'
    return (renamedOperand constant l l'.index k dl, renamedOperand constant r r'.index k dr)
  else
    return (⟨l, l.dependsOnly constant, fun _ => dl k⟩, ⟨r, r.dependsOnly constant, fun _ => dr k⟩)

/-- The derivative along one label, `atMark` being the derivative of a marked expression. -/
def differentiate (constant : Constancy) (atMark : Expr → Index → Label → Except Fault Expr)
    (n : Expr) (k : Label) : Except Fault Expr :=
  if n.dependsOnly constant then zeroDerivative n k
  else match n with
    | tensor symbol labels => do
      let labels ←
        if (Index.repeated labels).contains k then do
          pure (Index.rename labels k (← freshLabel n k))
        else pure labels
      mkLeaf symbol (← Index.concat labels [k])
    | sum l r =>
      additiveRule true ⟨l, l.dependsOnly constant, fun _ => differentiate constant atMark l k⟩
        ⟨r, r.dependsOnly constant, fun _ => differentiate constant atMark r k⟩
    | difference l r =>
      additiveRule false ⟨l, l.dependsOnly constant, fun _ => differentiate constant atMark l k⟩
        ⟨r, r.dependsOnly constant, fun _ => differentiate constant atMark r k⟩
    | product l r => do
      let (u, v) ← factors constant (product l r) l r k
        (differentiate constant atMark l) (differentiate constant atMark r)
      productRule u v
    | ratio l r => do
      let (u, v) ← factors constant (ratio l r) l r k
        (differentiate constant atMark l) (differentiate constant atMark r)
      quotientRule u v
    | negate e => do mkNegate (← differentiate constant atMark e k)
    | power u e =>
      match e with
      | literal (.exact q) _ => do
        let lower ← mkPower u (number (.exact (q - 1)))
        let coefficient ← mkProduct (number (.exact q)) lower
        mkProduct coefficient (← differentiate constant atMark u k)
      | e => .error (.derivativeOfPower e.toBytes)
    | apply f u => do
      let slope ← functionDerivative f u
      mkProduct slope (← differentiate constant atMark u k)
    | bind e target => do
      if (Index.repeated target).contains k then
        let target' := Index.rename target k (← freshLabel n k)
        let _ ← mkBind e target'
        bindRule e target' k (differentiate constant atMark e)
      else bindRule e target k (differentiate constant atMark e)
    | derivative e along => atMark e along k
    | literal .. | delta _ | epsilon _ | scalar _ =>
      .error (.derivativeOfNode (Bytes.ofString n.kind.name) n.toBytes)

/-- The derivative of a marked expression by a longer mark. -/
def extendMark (e : Expr) (along : Index) (k : Label) : Except Fault Expr :=
  mkDerivative (derivative e along) [k]

/-- The derivative along each label in turn of an expression without marks. -/
def differentiatePlain (constant : Constancy) (e : Expr) (along : Index) : Except Fault Expr :=
  along.foldlM (fun e k => differentiate constant extendMark e k) e

/-- Every mark replaced by the derivative that it stands for, the innermost first. -/
def expand (constant : Constancy) : Expr → Except Fault Expr
  | derivative e along => do differentiatePlain constant (← expand constant e) along
  | negate e => do mkNegate (← expand constant e)
  | apply f e => do rebuild (apply f e) (← expand constant e) e
  | bind e target => do rebuild (bind e target) (← expand constant e) e
  | sum l r => do mkSum (← expand constant l) (← expand constant r)
  | difference l r => do mkDifference (← expand constant l) (← expand constant r)
  | product l r => do mkProduct (← expand constant l) (← expand constant r)
  | ratio l r => do mkRatio (← expand constant l) (← expand constant r)
  | power l r => do mkPower (← expand constant l) (← expand constant r)
  | leaf => .ok leaf

/-- The derivative of a marked expression: a longer mark, unless the direction is a label that the
mark already sums over. -/
def markDerivative (constant : Constancy) (e : Expr) (along : Index) (k : Label) :
    Except Fault Expr := do
  if (Index.repeated (e.outer ++ along)).contains k then
    differentiate constant extendMark (← expand constant (derivative e along)) k
  else extendMark e along k

/-- The derivative along one label of an expression that may hold marks. -/
def diff (constant : Constancy) (e : Expr) (k : Label) : Except Fault Expr :=
  differentiate constant (markDerivative constant) e k

/-- The derivative along each label in turn. -/
def diffAlong (constant : Constancy) (e : Expr) (along : Index) : Except Fault Expr :=
  along.foldlM (diff constant) e

end Indicial.Expr
