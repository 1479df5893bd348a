import Indicial.Expr.Parser
import Indicial.EquationSystem

/-!
# Models

A model is a system described by text: tensors are declared by name and order, equations are written
as expressions, and constants get default values by their binding names.
-/

namespace Indicial

/-- A value for a constant, by binding name. -/
structure Binding (α : Type) where
  name : Bytes
  value : α
deriving DecidableEq, Inhabited

/-- The declaration of a tensor. -/
structure Declaration where
  name : Bytes
  order : Int64
deriving DecidableEq, Inhabited

/-- An equation as text. -/
structure Model.EquationSource where
  lhs : Bytes
  index : Bytes
  rhs : Bytes
deriving DecidableEq, Inhabited

/-- The description of a model. -/
structure Model.Source where
  name : Bytes
  dimension : Int64
  tensors : List Declaration
  equations : List Model.EquationSource
  constants : List (Binding Binary64)
deriving DecidableEq, Inhabited

/-- A checked system with default values. -/
structure Model where
  system : EquationSystem
  constants : List (Binding Binary64)

namespace Model

/-- A letter or underscore, then letters, digits and underscores. -/
def isName : Bytes → Bool
  | [] => false
  | b :: rest => Bytes.isLetter b && rest.all fun c => Bytes.isLetter c || Bytes.isDigit c

/-- The words of the expression language, which name no tensor. -/
def isReserved (name : Bytes) : Bool :=
  (Func.ofName? name).isSome
    || ["D", "bind", "symmetrize", "delta", "epsilon"].any fun w => Bytes.ofString w == name

/-- Declares one tensor after those of `scope`. -/
def declare (scope : Expr.Parser.Scope) (d : Declaration) : Except Error Expr.Parser.Scope :=
  if scope.any fun entry => entry.1 == d.name then .error (.system (.declaredTwice d.name))
  else if !isName d.name || d.order < 0 || Int64.ofNat Tensor.maxOrder < d.order then
    .error (.system (.badTensor d.name d.order))
  else if isReserved d.name then .error (.system (.reservedName d.name))
  else do
    let t ← Tensor.make d.name d.order.toInt scope.length
    return scope ++ [(d.name, t)]

/-- Adds equation number `i`. -/
def assign (scope : Expr.Parser.Scope) (s : EquationSystem) (i : Nat) (eq : Model.EquationSource) :
    Except Error EquationSystem :=
  match scope.find? fun entry => entry.1 == eq.lhs with
  | none => .error (.system (.unknownLeft i eq.lhs))
  | some (_, lhs) => do
    let rhs ← Except.within (.equationOf i eq.lhs) (Expr.Parser.parse scope eq.rhs)
    if Tensor.maxOrder < eq.index.length then throw (.system (.indexTooLong i eq.index))
    Except.within (.equation i) (s.add ⟨some lhs, eq.index, some rhs⟩)

/-- Adds the equations from number `i` on. -/
def assignAll (scope : Expr.Parser.Scope) : EquationSystem → Nat → List Model.EquationSource →
    Except Error EquationSystem
  | s, _, [] => .ok s
  | s, i, eq :: rest => do assignAll scope (← assign scope s i eq) (i + 1) rest

/-- Declares the tensors, reads every equation and checks the system. -/
def Source.build (src : Source) : Except Error Model := do
  let scope ← src.tensors.foldlM declare []
  let s ← assignAll scope (EquationSystem.start src.name src.dimension) 0 src.equations
  s.validate
  return ⟨s, src.constants⟩

/-- The default values in the order of their names. -/
def bindings (m : Model) : List (Binding Binary64) :=
  m.constants.mergeSort fun a b => !Bytes.less b.name a.name

end Model

end Indicial
