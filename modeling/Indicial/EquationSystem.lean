import Indicial.Error
import Indicial.Expr.Basic
import Indicial.Layout

/-!
# Systems of equations

An equation assigns an expression to a tensor, component by component; its labels say in which order
the components are enumerated. A system is a list of equations over a dimension. The tensors on left
sides are its unknowns, and every other tensor is constant.
-/

namespace Indicial

/-- An assignment of an expression to a tensor. -/
structure Equation where
  lhs : Tensor
  labels : Index
  rhs : Expr

namespace Equation

/-- The label order of the left side: the given labels, or else the free labels of the right side. -/
def order (eq : Equation) : Index := if eq.labels.isEmpty then eq.rhs.outer else eq.labels

/-- The number of components for a dimension. -/
def components (eq : Equation) (dim : Int64) : Int64 :=
  Layout.power dim (Int64.ofNat eq.lhs.order)

/-- Checks that the sides have the same free labels. -/
def validate (eq : Equation) : Except Error Unit :=
  if eq.lhs.order ≠ eq.rhs.rank then
    .error (.system (.rank eq.lhs.name eq.lhs.order eq.rhs.rank eq.rhs.outer))
  else if !Index.isPermutation eq.order eq.rhs.outer then
    .error (.system (.labels eq.lhs.name eq.order eq.rhs.outer))
  else .ok ()

/-- An equation of which a side may still be missing. -/
structure Draft where
  lhs : Option Tensor
  labels : Index
  rhs : Option Expr

/-- The equation that a draft describes, if both sides are there. -/
def Draft.complete? : Draft → Option Equation
  | ⟨some lhs, labels, some rhs⟩ => some ⟨lhs, labels, rhs⟩
  | _ => none

/-- The checked equation of a draft. -/
def Draft.validate (d : Draft) : Except Error Equation :=
  match d.complete? with
  | some eq => do
    eq.validate
    return eq
  | none => .error (.system .missingSide)

end Equation

/-- An ordered list of equations over a dimension. -/
structure EquationSystem where
  name : Bytes
  dim : Int64
  equations : List Equation
  unknowns : List Tensor

namespace EquationSystem

/-- The largest dimension. -/
def maxDim : Int64 := 16

/-- Checks the dimension and that there is an equation. -/
def validateFrame (dim : Int64) (count : Nat) : Except Error Unit :=
  if dim < 1 || maxDim < dim then .error (.system (.dimension dim))
  else if count = 0 then .error (.system .noEquations)
  else .ok ()

/-- Checks the dimension and every equation. -/
def validate (s : EquationSystem) : Except Error Unit := do
  validateFrame s.dim s.equations.length
  s.equations.forM Equation.validate

/-- One equation more. A tensor is assigned at most once. -/
def add (s : EquationSystem) (d : Equation.Draft) : Except Error EquationSystem := do
  let eq ← d.validate
  if s.unknowns.contains eq.lhs then throw (.system (.assignedTwice eq.lhs.name))
  return { s with equations := s.equations ++ [eq], unknowns := s.unknowns ++ [eq.lhs] }

/-- The system without equations. -/
def start (name : Bytes) (dim : Int64) : EquationSystem := ⟨name, dim, [], []⟩

/-- The checked system of the drafts. -/
def ofDrafts (name : Bytes) (dim : Int64) (drafts : List Equation.Draft) :
    Except Error EquationSystem := do
  let s ← drafts.foldlM add (start name dim)
  s.validate
  return s

/-- The system of the drafts as they are, in which no tensor is an unknown. Only a missing side is
refused, with the first error that checking the drafts in order meets. -/
def ofDraftsUnchecked (name : Bytes) (dim : Int64) (drafts : List Equation.Draft) :
    Except Error EquationSystem := do
  match drafts.mapM Equation.Draft.complete? with
  | some equations => return ⟨name, dim, equations, []⟩
  | none => do
    validateFrame dim drafts.length
    let equations ← drafts.mapM Equation.Draft.validate
    return ⟨name, dim, equations, []⟩

/-- Whether a tensor is on no left side. -/
def isConstant (s : EquationSystem) (t : Tensor) : Bool := !s.unknowns.contains t

/-- Every tensor of the system, from the oldest to the youngest. -/
def tensors (s : EquationSystem) : List Tensor :=
  (s.equations.flatMap fun eq => eq.lhs :: eq.rhs.tensors).eraseDups.mergeSort
    fun a b => a.serial ≤ b.serial

/-- The number of components of all equations together. -/
def width (s : EquationSystem) : Int64 := s.equations.foldl (fun w eq => w + eq.components s.dim) 0

end EquationSystem

end Indicial
