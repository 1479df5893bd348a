import Indicial.Coord

/-!
# Tensors and scalar references

A tensor is a symbol with a name and an order. Symbols are told apart by the serial number that
they got when they were made, so two tensors of one name are different symbols. A scalar reference
picks one component of a tensor and a multiset of derivative directions; its key is the text by
which values are bound to it.
-/

namespace Indicial

/-- A symbol of a fixed order. -/
structure Tensor where
  name : Bytes
  order : Nat
  serial : Nat
deriving DecidableEq, Inhabited

namespace Tensor

/-- The largest order of a tensor. -/
def maxOrder : Nat := 8

/-- A new symbol; its order lies between zero and eight and its name is not empty. -/
def make (name : Bytes) (order : Int) (serial : Nat) : Except Fault Tensor :=
  if order < 0 || (maxOrder : Int) < order then .error (.tensorOrder name order)
  else if name.isEmpty then .error .tensorUnnamed
  else .ok ⟨name, order.toNat, serial⟩

end Tensor

/-- One component of a tensor with derivative directions applied to it. -/
structure ScalarRef where
  tensor : Tensor
  component : Coord
  derivs : Coord
  constant : Bool
deriving DecidableEq, Inhabited

namespace ScalarRef

/-- A reference with sorted directions; the component has one entry for each index of the tensor. -/
def make (tensor : Tensor) (component derivs : Coord) (constant : Bool) : Except Fault ScalarRef :=
  if component.size = tensor.order then .ok ⟨tensor, component, derivs.sorted, constant⟩
  else .error (.scalarComponent tensor.name component.toBytes tensor.order)

/-- The binding name of a component, such as `v[1]` or `v[1]'d[0,1]`. -/
def keyOf (name : Bytes) (component derivs : Coord) : Bytes :=
  name
    ++ (if component.size = 0 then [] else [91] ++ component.toBytes ++ [93])
    ++ (if derivs.size = 0 then [] else Bytes.ofString "'d[" ++ derivs.sorted.toBytes ++ [93])

/-- The binding name of a reference. -/
def key (r : ScalarRef) : Bytes := keyOf r.tensor.name r.component r.derivs

/-- Order by the age of the tensor, then by component, then by directions. -/
def less (a b : ScalarRef) : Bool :=
  if a.tensor ≠ b.tensor then a.tensor.serial < b.tensor.serial
  else if a.component ≠ b.component then a.component.less b.component
  else a.derivs.less b.derivs

end ScalarRef

end Indicial
