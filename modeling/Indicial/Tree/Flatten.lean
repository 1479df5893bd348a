import Indicial.Catalog
import Indicial.Expr.Component
import Indicial.Tree.Basic

/-!
# Flattening expressions

`Expr.flatten` writes an expression without marks for derivatives out as a tree. Scalars are looked up
in a catalog, tensor leaves become the list of scalars they read, and each node gets the next window
of storage.
-/

namespace Indicial

/-- What flattening depends on: the dimension, which tensors are constant, the catalog, and the number
that a literal becomes. -/
structure Lowering (α : Type) where
  dim : Int64
  constant : Expr.Constancy
  catalog : Catalog
  value : Literal → α

namespace Tree

/-- One node at the end, with the next window of storage. -/
def push {α : Type} (t : Tree α) (tag : UInt8) (left : Int32) (outer inner binding : Index)
    (ids : List Int32) (value : α) (func : UInt8) : Tree α where
  dim := t.dim
  tags := t.tags.push tag
  left := t.left.push left
  outer := t.outer.push outer
  inner := t.inner.push inner
  binding := t.binding.push binding
  ids := t.ids.push ids
  values := t.values.push value
  funcs := t.funcs.push func
  offsets := t.offsets.push t.depth
  depth := t.depth + (Layout.power t.dim (Int64.ofNat outer.length)).toInt32

end Tree

namespace Expr

/-- What a leaf or the root of an expression adds to its place in a tree, the operands apart. -/
structure Slot (α : Type) where
  kind : Kind
  binding : Index
  ids : List Int32
  value : α
  func : UInt8

variable {α : Type}

/-- A node without binding, ids, number and function. -/
def plainSlot (w : Lowering α) (k : Kind) : Slot α :=
  ⟨k, [], [], w.value (Literal.ofInt 0), 0⟩

/-- The kind of a leaf that reads scalars. -/
def scalarKind (constant : Bool) : Kind := if constant then .constant else .scalar

/-- The entry of the root of an expression. -/
def slot (w : Lowering α) (n : Expr) : Except Fault (Slot α) :=
  match n with
  | derivative .. => .error (.unexpandedDerivative n.toBytes)
  | ratio _ r =>
    if r.rank = 0 then .ok (plainSlot w .ratio) else .error (.ratioDenominator r.toBytes r.rank)
  | bind _ target => .ok { plainSlot w .bind with binding := target }
  | delta labels => .ok { plainSlot w .delta with binding := labels }
  | epsilon labels =>
    if (labels.length : Int) = w.dim.toInt then .ok { plainSlot w .epsilon with binding := labels }
    else .error (.epsilonFlattened labels w.dim.toInt)
  | literal value _ => .ok { plainSlot w .literal with value := w.value value }
  | apply f _ => .ok { plainSlot w .function with func := f.code }
  | tensor symbol labels => do
    let refs ← leafReferences w.constant w.dim n
    let ids ← refs.mapM w.catalog.id
    return { plainSlot w (scalarKind (w.constant symbol)) with
      binding := labels, ids := ids.map Int32.ofNat }
  | scalar ref => do
    let i ← w.catalog.id ref
    return { plainSlot w (scalarKind ref.constant) with ids := [Int32.ofNat i] }
  | n => .ok (plainSlot w n.kind)

/-- Writes the root of an expression behind its operands. -/
def emitRoot (w : Lowering α) (n : Expr) (left : Int32) (t : Tree α) : Except Fault (Tree α) := do
  let s ← slot w n
  let inner ← n.inner
  return t.push s.kind.code left n.outer inner s.binding s.ids s.value s.func

/-- Writes a binary node behind its operands. -/
def emitBinary (w : Lowering α) (n : Expr)
    (left right : Tree α → Except Fault (Tree α)) (t : Tree α) : Except Fault (Tree α) := do
  let t ← left t
  let place := Int32.ofNat t.root
  emitRoot w n place (← right t)

/-- Writes an expression at the end of a tree. -/
def emit (w : Lowering α) : Expr → Tree α → Except Fault (Tree α)
  | sum l r, t => emitBinary w (sum l r) (emit w l) (emit w r) t
  | difference l r, t => emitBinary w (difference l r) (emit w l) (emit w r) t
  | product l r, t => emitBinary w (product l r) (emit w l) (emit w r) t
  | ratio l r, t => emitBinary w (ratio l r) (emit w l) (emit w r) t
  | power l r, t => emitBinary w (power l r) (emit w l) (emit w r) t
  | negate e, t => do emitRoot w (negate e) (-1) (← emit w e t)
  | apply f e, t => do emitRoot w (apply f e) (-1) (← emit w e t)
  | bind e target, t => do emitRoot w (bind e target) (-1) (← emit w e t)
  | derivative e along, t => do emitRoot w (derivative e along) (-1) (← emit w e t)
  | leaf, t => emitRoot w leaf (-1) t

/-- The tree of an expression. -/
def flatten (w : Lowering α) (n : Expr) : Except Fault (Tree α) := do
  let t ← emit w n (Tree.empty w.dim)
  match t.validate with
  | .ok () => return t
  | .error e => throw (.brokenLayout e.message)

end Expr

end Indicial
