import Indicial.Catalog
import Indicial.Tree.Basic

/-!
# Programs

A program is a compiled system: a catalog of the scalars it reads, one block of the flat output vector
for each equation, and kernels. A kernel is a tree together with the output slots that the components
of its root are written to.

`Program.validate` checks the whole: the output blocks follow each other, every tree is well formed
and of the program's dimension, its ids are entries of the catalog, and each output slot is written
exactly once.
-/

namespace Indicial

/-- The block of one equation in the output vector. -/
structure Output where
  name : Bytes
  order : Int64
  base : Int64
  labels : Index
deriving DecidableEq, Inhabited

namespace Output

/-- The length of the block. -/
def components (o : Output) (dim : Int64) : Int64 := Layout.power dim o.order

/-- The `count` last digits of `k` in base `dim`, the most significant first. -/
def digits (dim : Int64) : (count : Nat) → (k : Int64) → List Int64
  | 0, _ => []
  | count + 1, k => digits dim count (k / dim) ++ [k % dim]

/-- The name of component `k` of the block. -/
def key (o : Output) (dim k : Int64) : Except Fault Bytes := do
  let component ← Coord.ofInts ((digits dim o.order.toInt.toNat k).map Int64.toInt)
  return ScalarRef.keyOf o.name component Coord.empty

end Output

/-- A tree and the output slots of its root components. -/
structure Kernel (α : Type) where
  equation : Int64
  targets : List Int32
  tree : Option (Tree α)
deriving DecidableEq, Inhabited

/-- A compiled system. -/
structure Program (α : Type) where
  id : Bytes
  name : Bytes
  dim : Int64
  catalog : Option Catalog
  outputs : List Output
  kernels : List (Kernel α)
deriving DecidableEq, Inhabited

namespace Program

variable {α : Type}

/-- The program with every number replaced. -/
def map {β : Type} (f : α → β) (p : Program α) : Program β where
  id := p.id
  name := p.name
  dim := p.dim
  catalog := p.catalog
  outputs := p.outputs
  kernels := p.kernels.map fun k => ⟨k.equation, k.targets, k.tree.map (Tree.map f)⟩

/-- The length of the output vector. -/
def width (p : Program α) : Int64 := p.outputs.foldl (fun w o => w + o.components p.dim) 0

/-- The names of all slots of the output vector. -/
def outputKeys (p : Program α) : Except Fault (List Bytes) := do
  let blocks ← p.outputs.mapM fun o =>
    (List.range (o.components p.dim).toInt.toNat).mapM fun k => o.key p.dim (Int64.ofNat k)
  return blocks.flatten

/-- The trees that are there. -/
def trees (p : Program α) : List (Tree α) := p.kernels.filterMap (·.tree)

/-- The storage that the most demanding kernel needs. -/
def stackDepth (p : Program α) : Int64 := p.trees.foldl (fun d t => max d t.depth.toInt64) 0

/-- The number of nodes of all kernels. -/
def nodes (p : Program α) : Nat := p.trees.foldl (fun n t => n + t.nodes) 0

/-- Checks that each output block begins where the one before it ends. -/
def validateOutputs (dim : Int64) : (base : Int64) → List Output → Except Error Unit
  | _, [] => .ok ()
  | base, o :: rest =>
    if o.base ≠ base || Int64.ofNat Index.capacity < o.order then
      .error (.program (.output o.name o.base o.order))
    else validateOutputs dim (base + o.components dim) rest

/-- The number of entries of the table that the ids of a node refer to. -/
def idLimit (c : Catalog) (t : Tree α) (i : Nat) : Nat :=
  if t.kind? i = some .constant then c.constants.length else c.scalars.length

/-- Checks the ids of one node. -/
def validateIds (c : Catalog) (number : Nat) (t : Tree α) (i : Nat) : Except Error Unit :=
  match (t.ids.row i).find? fun e => e < 0 || (idLimit c t i : Int) ≤ e.toInt with
  | some e => .error (.program (.id number i e))
  | none => .ok ()

/-- Checks kernel `number` of a program. -/
def validateKernel (p : Program α) (c : Catalog) (number : Nat) (k : Kernel α) :
    Except Error Unit :=
  match k.tree with
  | none => .error (.program (.missingTree number))
  | some t => do
    Except.within (.kernel number) t.validate
    if t.dim ≠ p.dim then throw (.program (.dimension number t.dim p.dim))
    if (k.targets.length : Int) ≠ (t.size t.root).toInt then
      throw (.program (.targetCount number k.targets.length (t.size t.root)))
    match k.targets.find? fun s => s < 0 || p.width.toInt ≤ s.toInt with
    | some s => throw (.program (.target number s))
    | none => (List.range t.nodes).forM (validateIds c number t)

/-- Checks the kernels from `number` on. -/
def validateKernels (p : Program α) (c : Catalog) : (number : Nat) → List (Kernel α) →
    Except Error Unit
  | _, [] => .ok ()
  | number, k :: rest => do
    p.validateKernel c number k
    validateKernels p c (number + 1) rest

/-- How often each of the first `slots` slots is a target. -/
def tally (slots : Nat) (targets : List Int32) : Array Nat :=
  targets.foldl (fun w s => w.modify s.toInt.toNat (· + 1)) (Array.replicate slots 0)

/-- The first slot below `width` that is not a target exactly once, and how often it is. Among one slot
more than there are targets such a slot is met, so no more need be looked at. -/
def miswritten? (width : Nat) (targets : List Int32) : Option (Nat × Nat) :=
  let written := tally (min width (targets.length + 1)) targets
  (written.toList.zipIdx.find? fun entry => entry.1 ≠ 1).map fun entry => (entry.2, entry.1)

/-- Checks every part of a program and that the parts fit together. -/
def validate (p : Program α) : Except Error Unit :=
  match p.catalog with
  | none => .error (.program .missingCatalog)
  | some c => do
    validateOutputs p.dim 0 p.outputs
    if p.width < 0 then throw (.fault .storage)
    p.validateKernels c 0 p.kernels
    match miswritten? p.width.toInt.toNat (p.kernels.flatMap (·.targets)) with
    | some (place, count) => throw (.program (.slot place count))
    | none => return ()

end Program

end Indicial
