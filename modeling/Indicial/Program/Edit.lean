import Indicial.Number.Binary64
import Indicial.Program.Basic

/-!
# Edits of programs

A program that comes from a file may hold anything. An edit changes one stored field and nothing else,
whatever that does to the rules that the checks keep: it is the way to make a damaged program on
purpose, and to see which check refuses it.
-/

namespace Indicial

namespace Rows

variable {α : Type}

/-- One offset replaced. -/
def setOffset (c : Rows α) (i : Nat) (v : Int32) : Rows α :=
  { c with offsets := c.offsets.setIfInBounds i v }

/-- One item of the shared array replaced. -/
def setItem (c : Rows α) (i : Nat) (x : α) : Rows α := { c with data := c.data.setIfInBounds i x }

/-- Only the first `n` offsets. -/
def cutOffsets (c : Rows α) (n : Nat) : Rows α := { c with offsets := c.offsets.extract 0 n }

end Rows

/-- The tables of rows of a tree. -/
inductive Tree.Table where
  | outer | inner | binding | ids
deriving DecidableEq

/-- The arrays of a tree with one entry for each node. -/
inductive Tree.Column where
  | left | values | funcs | offsets
deriving DecidableEq

/-- A change of one field of a tree. -/
inductive Tree.Edit where
  | dim (n : Int64)
  | depth (n : Int32)
  | tag (i : Nat) (code : UInt8)
  | left (i : Nat) (place : Int32)
  | func (i : Nat) (code : UInt8)
  | value (i : Nat) (x : Binary64)
  | offset (i : Nat) (slot : Int32)
  | id (i : Nat) (entry : Int32)
  | label (table : Tree.Table) (i : Nat) (c : UInt8)
  | rowOffset (table : Tree.Table) (i : Nat) (v : Int32)
  | cutRows (table : Tree.Table) (n : Nat)
  | cutColumn (column : Tree.Column) (n : Nat)

/-- The tree after an edit. -/
def Tree.edit (t : Tree Binary64) : Tree.Edit → Tree Binary64
  | .dim n => { t with dim := n }
  | .depth n => { t with depth := n }
  | .tag i code => { t with tags := t.tags.setIfInBounds i code }
  | .left i place => { t with left := t.left.setIfInBounds i place }
  | .func i code => { t with funcs := t.funcs.setIfInBounds i code }
  | .value i x => { t with values := t.values.setIfInBounds i x }
  | .offset i slot => { t with offsets := t.offsets.setIfInBounds i slot }
  | .id i entry => { t with ids := t.ids.setItem i entry }
  | .label .outer i c => { t with outer := t.outer.setItem i c }
  | .label .inner i c => { t with inner := t.inner.setItem i c }
  | .label .binding i c => { t with binding := t.binding.setItem i c }
  | .label .ids _ _ => t
  | .rowOffset .outer i v => { t with outer := t.outer.setOffset i v }
  | .rowOffset .inner i v => { t with inner := t.inner.setOffset i v }
  | .rowOffset .binding i v => { t with binding := t.binding.setOffset i v }
  | .rowOffset .ids i v => { t with ids := t.ids.setOffset i v }
  | .cutRows .outer n => { t with outer := t.outer.cutOffsets n }
  | .cutRows .inner n => { t with inner := t.inner.cutOffsets n }
  | .cutRows .binding n => { t with binding := t.binding.cutOffsets n }
  | .cutRows .ids n => { t with ids := t.ids.cutOffsets n }
  | .cutColumn .left n => { t with left := t.left.extract 0 n }
  | .cutColumn .values n => { t with values := t.values.extract 0 n }
  | .cutColumn .funcs n => { t with funcs := t.funcs.extract 0 n }
  | .cutColumn .offsets n => { t with offsets := t.offsets.extract 0 n }

/-- A change of one kernel. -/
inductive Kernel.Edit where
  | equation (n : Int64)
  | target (i : Nat) (slot : Int32)
  | cutTargets (n : Nat)
  | addTarget (slot : Int32)
  | setTree (t : Option (Tree Binary64))
  | tree (e : Tree.Edit)

/-- The kernel after an edit. -/
def Kernel.edit (k : Kernel Binary64) : Kernel.Edit → Kernel Binary64
  | .equation n => { k with equation := n }
  | .target i slot => { k with targets := k.targets.set i slot }
  | .cutTargets n => { k with targets := k.targets.take n }
  | .addTarget slot => { k with targets := k.targets ++ [slot] }
  | .setTree t => { k with tree := t }
  | .tree e => { k with tree := k.tree.map fun t => t.edit e }

/-- A change of one field of a program. -/
inductive Program.Edit where
  | name (s : Bytes)
  | dim (n : Int64)
  | noCatalog
  | outputName (i : Nat) (s : Bytes)
  | outputOrder (i : Nat) (n : Int64)
  | outputBase (i : Nat) (n : Int64)
  | dropOutput
  | dropKernel (k : Nat)
  | copyKernel (k : Nat)
  | swapKernels (k l : Nat)
  | kernel (k : Nat) (e : Kernel.Edit)

namespace Program

/-- The kernels that an edit speaks of. -/
def Edit.kernels : Edit → List Nat
  | .dropKernel k | .copyKernel k | .kernel k _ => [k]
  | .swapKernels k l => [k, l]
  | _ => []

/-- Whether the program has every kernel that an edit speaks of, with a tree if it changes that. -/
def accepts (p : Program Binary64) (e : Edit) : Bool :=
  e.kernels.all fun k => match e, p.kernels[k]? with
    | .kernel _ (.tree _), some kernel => kernel.tree.isSome
    | _, found => found.isSome

/-- The program after an edit. -/
def edit (p : Program Binary64) : Edit → Program Binary64
  | .name s => { p with name := s }
  | .dim n => { p with dim := n }
  | .noCatalog => { p with catalog := none }
  | .outputName i s => { p with outputs := p.outputs.modify i fun o => { o with name := s } }
  | .outputOrder i n => { p with outputs := p.outputs.modify i fun o => { o with order := n } }
  | .outputBase i n => { p with outputs := p.outputs.modify i fun o => { o with base := n } }
  | .dropOutput => { p with outputs := p.outputs.dropLast }
  | .dropKernel k => { p with kernels := p.kernels.eraseIdx k }
  | .copyKernel k => { p with kernels := p.kernels ++ (p.kernels[k]?).toList }
  | .swapKernels k l => { p with kernels := (p.kernels.toArray.swapIfInBounds k l).toList }
  | .kernel k e => { p with kernels := p.kernels.modify k fun x => x.edit e }

end Program

end Indicial
