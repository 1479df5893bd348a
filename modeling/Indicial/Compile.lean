import Indicial.Program.Basic
import Indicial.EquationSystem
import Indicial.Tree.Flatten

/-!
# Compilation

A system becomes a program in five steps: marks for derivatives are expanded, the expressions are
simplified, each equation becomes kernels, the scalars that the kernels read are collected in a
catalog, and the kernels are flattened. In scalar mode an equation becomes one kernel for each
component; otherwise it becomes one kernel whose root holds all components, and the target slots carry
the components from the label order of the root to that of the equation.
-/

namespace Indicial

/-- How to compile. -/
structure Compile.Options where
  /-- One kernel for each output component. -/
  scalarize : Bool
  /-- Check the finished program. -/
  validate : Bool

/-- An expression that waits to be flattened. -/
structure Compile.Pending where
  equation : Nat
  expr : Expr
  targets : List Int32

namespace Compile

/-- The kernels of one equation, whose output block begins at `base`. -/
def lower (scalarize : Bool) (s : EquationSystem) (number : Nat) (eq : Equation) (rhs : Expr)
    (base : Int64) : Except Fault (List Pending) :=
  if scalarize then do
    let parts ← rhs.components s.isConstant s.dim eq.order
    return parts.zipIdx.map fun (e, k) => ⟨number, e, [(base + Int64.ofNat k).toInt32]⟩
  else do
    let targets ← Index.componentMap rhs.outer eq.order s.dim base
    return [⟨number, rhs, targets⟩]

/-- The kernels of the equations from `number` on. -/
def lowerAll (scalarize : Bool) (s : EquationSystem) : (number : Nat) → (base : Int64) →
    List (Equation × Expr) → Except Fault (List Pending)
  | _, _, [] => .ok []
  | number, base, (eq, rhs) :: rest => do
    let first ← lower scalarize s number eq rhs base
    let others ← lowerAll scalarize s (number + 1) (base + eq.components s.dim) rest
    return first ++ others

/-- The scalars that a node itself reads. -/
def nodeRefs (s : EquationSystem) (n : Expr) : Except Fault (List ScalarRef) :=
  match n with
  | .scalar ref => .ok [ref]
  | .tensor .. => n.leafReferences s.isConstant s.dim
  | _ => .ok []

/-- The scalars that an expression reads. -/
def refs (s : EquationSystem) (e : Expr) : Except Fault (List ScalarRef) := do
  return (← e.postorder.mapM (nodeRefs s)).flatten

/-- The output blocks, one after the other. -/
def outputs (dim : Int64) : (base : Int64) → List Equation → List Output
  | _, [] => []
  | base, eq :: rest =>
    ⟨eq.lhs.name, Int64.ofNat eq.lhs.order, base, eq.order⟩
      :: outputs dim (base + eq.components dim) rest

/-- The right sides, expanded and then simplified. -/
def rightSides (s : EquationSystem) : Except Fault (List Expr) := do
  let expanded ← s.equations.mapM fun eq => eq.rhs.expand s.isConstant
  expanded.mapM Expr.simplify

end Compile

/-- Compiles a system. Literals become numbers by `value`, and the program gets the given id. -/
def EquationSystem.compile {α : Type} (value : Literal → α) (options : Compile.Options) (id : Bytes)
    (s : EquationSystem) : Except Error (Program α) := do
  s.validate
  let sides ← Compile.rightSides s
  let pending ← Compile.lowerAll options.scalarize s 0 0 (s.equations.zip sides)
  let refs ← pending.mapM fun k => Compile.refs s k.expr
  let catalog := Catalog.ofRefs refs.flatten
  let w : Lowering α := ⟨s.dim, s.isConstant, catalog, value⟩
  let kernels ← pending.mapM fun k => do
    let t ← Expr.flatten w k.expr
    return (⟨Int64.ofNat k.equation, k.targets, some t⟩ : Kernel α)
  let p : Program α := {
    id, name := s.name, dim := s.dim, catalog := some catalog,
    outputs := Compile.outputs s.dim 0 s.equations, kernels }
  if options.validate then p.validate
  return p

end Indicial
