import Indicial.Index
import Indicial.Kind
import Indicial.Layout
import Indicial.Rows

/-!
# Flattened trees

A tree is an expression written out node by node, operands before the node that uses them. The right
operand of a binary node and the operand of a unary one stand just before it; where the left operand
of a binary node stands is recorded. Every node owns a window of `dim ^ rank` storage slots. Windows
are given out at a rising watermark, so operands lie below the node and evaluation needs exactly
`depth` slots.

Trees come from files too, so nothing is assumed of the arrays: `Tree.validate` replays the postorder
with a stack of finished subtrees and checks that arrays, rows and windows fit together.

The numbers of a tree are of any type. Programs hold bit patterns, so that files keep them as they
are, and evaluation uses numbers.
-/

namespace Indicial

/-- An expression in postorder, with the storage window of each node. -/
structure Tree (α : Type) where
  dim : Int64
  tags : Array UInt8
  left : Array Int32
  outer : Rows UInt8
  inner : Rows UInt8
  binding : Rows UInt8
  ids : Rows Int32
  values : Array α
  funcs : Array UInt8
  offsets : Array Int32
  depth : Int32
deriving DecidableEq, Inhabited

namespace Tree

variable {α : Type}

/-- The largest dimension. -/
def maxDim : Int64 := 16

/-- The tree without nodes. -/
def empty (dim : Int64) : Tree α where
  dim := dim
  tags := #[]
  left := #[]
  outer := Rows.empty
  inner := Rows.empty
  binding := Rows.empty
  ids := Rows.empty
  values := #[]
  funcs := #[]
  offsets := #[]
  depth := 0

/-- The tree with every number replaced. -/
def map {β : Type} (f : α → β) (t : Tree α) : Tree β where
  dim := t.dim
  tags := t.tags
  left := t.left
  outer := t.outer
  inner := t.inner
  binding := t.binding
  ids := t.ids
  values := t.values.map f
  funcs := t.funcs
  offsets := t.offsets
  depth := t.depth

/-- The number of nodes. -/
def nodes (t : Tree α) : Nat := t.tags.size

/-- The place of the root. -/
def root (t : Tree α) : Nat := t.nodes - 1

/-- The tag of a node. -/
def tag (t : Tree α) (i : Nat) : UInt8 := t.tags.getD i 0

/-- The kind of a node. -/
def kind? (t : Tree α) (i : Nat) : Option Kind := Kind.ofCode? (t.tag i)

/-- How many operands a node has; a node without a kind has none. -/
def arity (t : Tree α) (i : Nat) : Kind.Arity :=
  match t.kind? i with
  | some k => k.arity
  | none => .leaf

/-- The first slot of a node's window. -/
def offset (t : Tree α) (i : Nat) : Int32 := t.offsets.getD i 0

/-- The length of a node's window. -/
def size (t : Tree α) (i : Nat) : Int64 := Layout.power t.dim (t.outer.length i)

/-- The slot after a node's window. -/
def watermark (t : Tree α) (i : Nat) : Int32 := t.offset i + (t.size i).toInt32

/-- Stands for an operand that a node does not have. -/
def noChild : Int := -1

/-- The places of the operands of a node. -/
def children (t : Tree α) (i : Nat) : Int × Int :=
  match t.arity i with
  | .binary => ((t.left.getD i 0).toInt, (i : Int) - 1)
  | .unary => ((i : Int) - 1, noChild)
  | .leaf => (noChild, noChild)

/-- Checks a table of labels: rows that cover the data, none longer than an index. -/
def validateLabels (c : Rows UInt8) (table : String) (n : Nat) : Except Error Unit := do
  c.validate table n
  match (List.range n).find? fun i => Index.capacity < (c.row i).length with
  | some i => .error (.tree (.tooManyLabels table i (c.row i).length))
  | none => .ok ()

/-- Whether a node may stand in a tree: marks for derivatives and tensor leaves may not. -/
def isAllowed (t : Tree α) (i : Nat) : Bool :=
  match t.kind? i with
  | some .derivative | some .tensor | none => false
  | some _ => true

/-- The finished subtrees, the last first, that remain after the operands of a node are taken. -/
def takeOperands (t : Tree α) (i : Nat) (stack : List Nat) : Except Error (List Nat) :=
  let (left, right) := t.children i
  match t.arity i, stack with
  | .binary, r :: l :: rest =>
    if (r : Int) ≠ right || (l : Int) ≠ left then .error (.tree (.operands i left right))
    else if left < right && right < i then .ok rest
    else .error (.tree (.operandOrder i left right))
  | .binary, _ => .error (.tree (.operands i left right))
  | .unary, c :: rest => if (c : Int) ≠ left then .error (.tree (.operand i left)) else .ok rest
  | .unary, [] => .error (.tree (.operand i left))
  | .leaf, stack => if t.left.getD i 0 ≠ -1 then .error (.tree (.leafLeft i)) else .ok stack

/-- Checks that the window of an operand ends where that of the node begins or before. -/
def validateWindow (t : Tree α) (i : Nat) (child : Int) : Except Error Unit :=
  if child = noChild then .ok ()
  else if (t.offset i).toInt64 < (t.offset child.toNat).toInt64 + t.size child.toNat then
    .error (.tree (.overlap i child))
  else .ok ()

/-- Checks one node against the finished subtrees before it, and adds it to them. -/
def replayNode (t : Tree α) (stack : List Nat) (i : Nat) : Except Error (List Nat) := do
  if !t.isAllowed i then throw (.tree (.tag i (Kind.nameOfCode (t.tag i))))
  let rest ← t.takeOperands i stack
  let (left, right) := t.children i
  t.validateWindow i left
  t.validateWindow i right
  if 0 < i && t.offset i < t.watermark (i - 1) then throw (.tree (.notMonotonic i))
  return i :: rest

/-- Checks the postorder and the windows; the finished subtrees at the end. -/
def replay (t : Tree α) : Except Error (List Nat) := (List.range t.nodes).foldlM t.replayNode []

/-- Checks every rule of the layout. -/
def validate (t : Tree α) : Except Error Unit := do
  let n := t.nodes
  if n = 0 then throw (.tree .empty)
  if t.dim < 1 || maxDim < t.dim then throw (.tree (.dimension t.dim))
  if t.left.size ≠ n || t.values.size ≠ n || t.funcs.size ≠ n || t.offsets.size ≠ n then
    throw (.tree .lengths)
  validateLabels t.outer "outer" n
  validateLabels t.inner "inner" n
  validateLabels t.binding "binding" n
  t.ids.validate "ids" n
  let stack ← t.replay
  if stack.length ≠ 1 then throw (.tree (.disconnected stack.length))
  if t.depth ≠ t.watermark t.root then throw (.tree (.depth t.depth (t.watermark t.root)))

end Tree

end Indicial
