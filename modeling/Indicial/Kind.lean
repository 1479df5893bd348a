import Indicial.Text.Bytes

/-!
# Node kinds

The kinds of nodes that expressions and flattened trees are made of. A tree stores the kind of each
node as one byte; bytes that name no kind can stand in a damaged tree and are refused when it is
checked.
-/

namespace Indicial

/-- The kind of a node. -/
inductive Kind where
  | sum | difference | product | ratio | bind | derivative | negate | power | function
  | literal | tensor | delta | epsilon | scalar | constant
deriving DecidableEq, Inhabited

namespace Kind

/-- All kinds, in the order of their codes. -/
def all : List Kind :=
  [.sum, .difference, .product, .ratio, .bind, .derivative, .negate, .power, .function,
    .literal, .tensor, .delta, .epsilon, .scalar, .constant]

/-- The byte that stands for the kind. -/
def code : Kind → UInt8
  | .sum => 1 | .difference => 2 | .product => 3 | .ratio => 4 | .bind => 5 | .derivative => 6
  | .negate => 7 | .power => 8 | .function => 9 | .literal => 10 | .tensor => 11 | .delta => 12
  | .epsilon => 13 | .scalar => 14 | .constant => 15

/-- The kind that a byte stands for. -/
def ofCode? (c : UInt8) : Option Kind := all.find? fun k => k.code == c

/-- The name of the kind in messages and listings. -/
def name : Kind → String
  | .sum => "sum" | .difference => "difference" | .product => "product" | .ratio => "ratio"
  | .bind => "bind" | .derivative => "partial" | .negate => "negate" | .power => "pow"
  | .function => "func" | .literal => "literal" | .tensor => "tensor" | .delta => "delta"
  | .epsilon => "epsilon" | .scalar => "scalar" | .constant => "constant"

/-- The name that a byte has in messages and listings. -/
def nameOfCode (c : UInt8) : String :=
  match ofCode? c with
  | some k => k.name
  | none => if c = 0 then "invalid" else "unknown"

/-- How many operands a node has. -/
inductive Arity where
  | leaf | unary | binary
deriving DecidableEq

/-- The number of operands of nodes of this kind. -/
def arity : Kind → Arity
  | .sum | .difference | .product | .ratio | .power => .binary
  | .bind | .derivative | .negate | .function => .unary
  | .literal | .tensor | .delta | .epsilon | .scalar | .constant => .leaf

end Kind

end Indicial
