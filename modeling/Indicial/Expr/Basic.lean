import Indicial.Index
import Indicial.Kind
import Indicial.Literal
import Indicial.Tensor

/-!
# Tensor expressions

An expression in index notation. Every expression has free labels, its *outer* index, computed by the
summation convention:

* the operands of a sum or difference have the same free labels, and the left one gives the order;
* the free labels of a product or ratio are those that occur in one operand only, shared labels being
  summed;
* leaves, relabelled expressions and derivatives are free in the labels that occur exactly once.

The constructors of the type check nothing. Expressions are built by the functions of
`Indicial.Expr.Build`, which do.
-/

namespace Indicial

/-- A tensor expression. -/
inductive Expr where
  /-- The same number in every component over the labels. -/
  | literal (value : Literal) (labels : Index)
  /-- A tensor with labels for its components, then labels for derivative directions. -/
  | tensor (symbol : Tensor) (labels : Index)
  /-- The Kronecker delta. -/
  | delta (labels : Index)
  /-- The Levi-Civita symbol. -/
  | epsilon (labels : Index)
  /-- One scalar unknown. -/
  | scalar (ref : ScalarRef)
  | negate (e : Expr)
  | apply (f : Func) (e : Expr)
  /-- The free labels of `e`, in their order, renamed to `to`; a label repeated in `to` is summed. -/
  | bind (e : Expr) (target : Index)
  /-- A mark for the derivative of `e` along each label in turn. -/
  | derivative (e : Expr) (along : Index)
  | sum (l r : Expr)
  | difference (l r : Expr)
  | product (l r : Expr)
  | ratio (l r : Expr)
  | power (base exponent : Expr)
deriving Inhabited

namespace Expr

/-- The kind of the root. -/
def kind : Expr → Kind
  | literal .. => .literal | tensor .. => .tensor | delta _ => .delta | epsilon _ => .epsilon
  | scalar _ => .scalar | negate _ => .negate | apply .. => .function | bind .. => .bind
  | derivative .. => .derivative | sum .. => .sum | difference .. => .difference
  | product .. => .product | ratio .. => .ratio | power .. => .power

/-- The free labels. -/
def outer : Expr → Index
  | literal _ labels => labels
  | tensor _ labels | delta labels | epsilon labels => Index.exclusive labels
  | scalar _ => []
  | negate e => e.outer
  | apply _ _ => []
  | bind _ target => Index.exclusive target
  | derivative e along => Index.exclusive (e.outer ++ along)
  | sum l _ | difference l _ => l.outer
  | product l r | ratio l r => Index.symmetricDifference l.outer r.outer
  | power _ _ => []

/-- The number of free labels. -/
def rank (e : Expr) : Nat := e.outer.length

/-- The labels written at the root: those of a leaf, the targets of a relabelling or the direction of
a derivative. -/
def index : Expr → Index
  | tensor _ labels | delta labels | epsilon labels => labels
  | bind _ target => target
  | derivative _ along => along
  | _ => []

/-- The labels that a relabelling renames. -/
def renamed : Expr → Index
  | bind e _ => e.outer
  | _ => []

/-- The labels that the root sums over. -/
def contracted : Expr → Index
  | product l r | ratio l r => Index.intersect l.outer r.outer
  | bind _ target => Index.repeated target
  | tensor _ labels | delta labels | epsilon labels => Index.repeated labels
  | _ => []

/-- The labels that the root runs over when it is evaluated as a tensor. For a product or ratio these
are the labels of both operands, which together must fit an index. -/
def inner : Expr → Except Fault Index
  | product l r | ratio l r => Index.unique <$> Index.concat l.outer r.outer
  | bind _ target => .ok (Index.unique target)
  | tensor _ labels | delta labels | epsilon labels => .ok (Index.unique labels)
  | _ => .ok []

/-- The left operand, or the only one. -/
def left? : Expr → Option Expr
  | negate e | apply _ e | bind e _ | derivative e _ => some e
  | sum l _ | difference l _ | product l _ | ratio l _ | power l _ => some l
  | _ => none

/-- The right operand. -/
def right? : Expr → Option Expr
  | sum _ r | difference _ r | product _ r | ratio _ r | power _ r => some r
  | _ => none

/-- The value of a literal. -/
def literal? : Expr → Option Literal
  | literal value _ => some value
  | _ => none

/-- A literal. -/
def isLiteral (e : Expr) : Bool := e.literal?.isSome

/-- A literal equal to zero, of any rank. -/
def isZero : Expr → Bool
  | literal value _ => value.isZero
  | _ => false

/-- A literal equal to one without labels. -/
def isOne : Expr → Bool
  | literal value labels => labels.isEmpty && value.isOne
  | _ => false

/-- A literal without labels. -/
def isCoefficient : Expr → Bool
  | literal _ labels => labels.isEmpty
  | _ => false

/-- Every subexpression, operands before the node that holds them. -/
def postorder : Expr → List Expr
  | negate e => postorder e ++ [negate e]
  | apply f e => postorder e ++ [apply f e]
  | bind e target => postorder e ++ [bind e target]
  | derivative e along => postorder e ++ [derivative e along]
  | sum l r => postorder l ++ postorder r ++ [sum l r]
  | difference l r => postorder l ++ postorder r ++ [difference l r]
  | product l r => postorder l ++ postorder r ++ [product l r]
  | ratio l r => postorder l ++ postorder r ++ [ratio l r]
  | power l r => postorder l ++ postorder r ++ [power l r]
  | leaf => [leaf]

/-- The number of nodes. -/
def size : Expr → Nat
  | negate e | apply _ e | bind e _ | derivative e _ => e.size + 1
  | sum l r | difference l r | product l r | ratio l r | power l r => l.size + r.size + 1
  | literal .. | tensor .. | delta _ | epsilon _ | scalar _ => 1

/-- The tensor that a leaf refers to. -/
def symbol? : Expr → Option Tensor
  | tensor symbol _ => some symbol
  | scalar ref => some ref.tensor
  | _ => none

/-- The tensors that occur, in the order in which they are first met. -/
def tensors (e : Expr) : List Tensor := (e.postorder.filterMap symbol?).eraseDups

/-- Whether every tensor that occurs satisfies `keep`. -/
def dependsOnly (keep : Tensor → Bool) : Expr → Bool
  | tensor symbol _ => keep symbol
  | scalar ref => keep ref.tensor
  | literal .. | delta _ | epsilon _ => true
  | negate e | apply _ e | bind e _ | derivative e _ => e.dependsOnly keep
  | sum l r | difference l r | product l r | ratio l r | power l r =>
    l.dependsOnly keep && r.dependsOnly keep

/-- Whether a mark for a derivative is left. -/
def hasDerivative : Expr → Bool
  | derivative .. => true
  | literal .. | tensor .. | delta _ | epsilon _ | scalar _ => false
  | negate e | apply _ e | bind e _ => e.hasDerivative
  | sum l r | difference l r | product l r | ratio l r | power l r =>
    l.hasDerivative || r.hasDerivative

/-- Every label that is free, written or renamed somewhere in the expression, node by node. -/
def allLabels (e : Expr) : Bytes := e.postorder.flatMap fun n => n.outer ++ n.index ++ n.renamed

/-- Equality of structure: the same kinds, labels, symbols and values in the same places. -/
def same : Expr → Expr → Bool
  | literal a i, literal b j => i == j && a.same b
  | tensor s i, tensor t j => s == t && i == j
  | delta i, delta j => i == j
  | epsilon i, epsilon j => i == j
  | scalar a, scalar b => a == b
  | negate a, negate b => a.same b
  | apply f a, apply g b => f == g && a.same b
  | bind a i, bind b j => i == j && a.same b
  | derivative a i, derivative b j => i == j && a.same b
  | sum a c, sum b d | difference a c, difference b d | product a c, product b d
  | ratio a c, ratio b d | power a c, power b d => a.same b && c.same d
  | _, _ => false

/-- The text of a binary node. -/
def binaryText (op : Bytes) (l r : Bytes) : Bytes := [40] ++ l ++ op ++ r ++ [41]

/-- The expression in infix form, every binary node in parentheses. -/
def toBytes : Expr → Bytes
  | sum l r => binaryText " + " l.toBytes r.toBytes
  | difference l r => binaryText " - " l.toBytes r.toBytes
  | product l r => binaryText "*" l.toBytes r.toBytes
  | ratio l r => binaryText "/" l.toBytes r.toBytes
  | power l r => binaryText "^" l.toBytes r.toBytes
  | negate e => 45 :: e.toBytes
  | apply f e => Bytes.ofString f.name ++ [40] ++ e.toBytes ++ [41]
  | bind e target => "bind(" ++ e.toBytes ++ ", " ++ e.outer ++ "->" ++ target ++ ")"
  | derivative e along => "D(" ++ e.toBytes ++ ", " ++ along ++ ")"
  | literal value labels => value.toBytes ++ (if labels.isEmpty then [] else 95 :: labels)
  | tensor symbol labels =>
    symbol.name ++ (if labels.isEmpty then [] else [40] ++ labels ++ [41])
  | delta labels => "delta(" ++ labels ++ ")"
  | epsilon labels => "epsilon(" ++ labels ++ ")"
  | scalar ref => ref.key

end Expr

end Indicial
