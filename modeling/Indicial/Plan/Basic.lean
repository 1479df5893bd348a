import Indicial.Func
import Indicial.Odometer
import Indicial.Tree.Basic

/-!
# Plans

A plan is a checked tree with every label resolved. For each node it says what to do with which
windows of storage: a contraction, relabelling or reordering becomes *index maps*, which give for every
assignment of the labels that a node runs over, in row-major order, the position in the window of the
node or of an operand. Windows that do not depend on the point are tabulated.
-/

namespace Indicial

/-- Positions in a window, one for each assignment in row-major order. No table stands for the
identity. -/
abbrev IndexMap := Option (Array Int32)

namespace IndexMap

/-- Adds the weight of each label of `target`, the first having position `place`, to the place of that
label in `inner`. -/
def addWeights (inner target : Index) (dim : Int64) :
    (place : Nat) → Index → List Int64 → Except Fault (List Int64)
  | _, [], weights => .ok weights
  | place, c :: rest, weights =>
    match Index.position? inner c with
    | none => .error (.missingLabel c target inner)
    | some p =>
      let weight := Layout.power dim (Int64.ofInt ((target.length : Int) - 1 - place))
      addWeights inner target dim (place + 1) rest (weights.modify p (· + weight))

/-- How far a step of each label of `inner` moves in row-major order over `target`. -/
def weights (inner target : Index) (dim : Int64) : Except Fault (List Int64) :=
  addWeights inner target dim 0 target (inner.map fun _ => 0)

/-- The position that digits have for given weights. -/
def position (weights : List Int64) (digits : List Nat) : Int64 :=
  (digits.zipWith (fun v w => Int64.ofNat v * w) weights).foldl (· + ·) 0

/-- For each assignment of `inner`, the position over `target` of the values that its labels get. A
label that `target` repeats has the same value at each occurrence. -/
def make (inner target : Index) (dim : Int64) : Except Fault IndexMap := do
  let w ← weights inner target dim
  let assignments ← Odometer.run inner.length dim.toInt
  let positions := assignments.map (position w)
  let identity := positions.zipIdx.all fun entry => entry.1.toInt == entry.2
  return if identity && inner.length = target.length then none
    else some (positions.map Int64.toInt32).toArray

/-- The number of entries of the table. -/
def length : IndexMap → Nat
  | none => 0
  | some m => m.size

/-- The position of assignment `k`. -/
def get (m : IndexMap) (k : Nat) : Except Fault Int :=
  match m with
  | none => .ok k
  | some m => match m[k]? with
    | some q => .ok q.toInt
    | none => .error .storage

end IndexMap

/-- What is done at a node. Operands are given by the first slot of their windows. -/
inductive Plan.Step (α : Type) where
  | add (a b : Int64) (right : IndexMap)
  | subtract (a b : Int64) (right : IndexMap)
  | multiply (a b : Int64) (own left right : IndexMap)
  | divide (a b : Int64) (own left right : IndexMap)
  | relabel (a : Int64) (own left : IndexMap)
  | negate (a : Int64)
  | power (a b : Int64)
  | apply (func : UInt8) (a : Int64)
  | fill (values : Array α)
  | readScalars (ids : List Int32) (own : IndexMap)
  | readConstants (ids : List Int32) (own : IndexMap)

/-- A node: its kind, its window, and what is done. -/
structure Plan.Node (α : Type) where
  kind : Kind
  offset : Int64
  size : Int64
  step : Plan.Step α

/-- A tree that is ready to be evaluated. -/
structure Plan (α : Type) where
  dim : Int64
  nodes : List (Plan.Node α)
  root : Int64
  rootSize : Int64
  depth : Int64

namespace Plan

variable {α : Type}

/-- The value of the Kronecker delta or the Levi-Civita symbol at given digits. -/
def symbolValue (kind : Kind) (digits : List Nat) : Int :=
  if kind = .delta then (if digits[0]? = digits[1]? then 1 else 0)
  else Odometer.permutationSign (digits.map Int.ofNat)

/-- The window of a delta or an epsilon over its free labels; a repeated label is summed. -/
def symbolPattern (A : Arith α) (kind : Kind) (binding outer : Index) (dim : Int64) :
    Except Fault (Array α) := do
  let inner := Index.unique binding
  let own ← IndexMap.make inner outer dim
  let assignments ← Odometer.run inner.length dim.toInt
  let window := Array.replicate (Layout.power dim (Int64.ofNat outer.length)).toInt.toNat A.zero
  assignments.zipIdx.foldlM (fun window entry => do
    let digits := binding.map fun c => (entry.1[(Index.position? inner c).getD 0]?).getD 0
    let q ← own.get entry.2
    return window.modify q.toNat fun x => A.add x (A.ofInt (symbolValue kind digits))) window

/-- What is done at node `i`, whose kind, operands and free labels are given. -/
def step (A : Arith α) (t : Tree α) (i : Nat) (kind : Kind) : Except Error (Step α) := do
  let (left, right) := t.children i
  let a : Int64 := (t.offset left.toNat).toInt64
  let b : Int64 := (t.offset right.toNat).toInt64
  let outer := t.outer.row i
  let leftOuter := t.outer.row left.toNat
  let rightOuter := t.outer.row right.toNat
  let binding := t.binding.row i
  match kind with
  | .sum | .difference => do
    if leftOuter ≠ outer then throw (.unsupported (.leftLabels kind.name leftOuter outer))
    let map ← IndexMap.make outer rightOuter t.dim
    return if kind = .sum then .add a b map else .subtract a b map
  | .product | .ratio => do
    let inner := Index.unique (← Index.concat leftOuter rightOuter)
    let own ← IndexMap.make inner outer t.dim
    let leftMap ← IndexMap.make inner leftOuter t.dim
    let rightMap ← IndexMap.make inner rightOuter t.dim
    return if kind = .product then .multiply a b own leftMap rightMap
      else .divide a b own leftMap rightMap
  | .bind => do
    if binding.length ≠ leftOuter.length then throw (.unsupported (.bind leftOuter binding))
    let inner := Index.unique binding
    let own ← IndexMap.make inner outer t.dim
    let leftMap ← IndexMap.make inner binding t.dim
    return .relabel a own leftMap
  | .negate => do
    if t.size left.toNat ≠ t.size i then
      throw (.unsupported (.negate (t.size left.toNat) (t.size i)))
    return .negate a
  | .power => do
    if t.size i ≠ 1 then throw (.unsupported (.rank kind.name outer.length))
    return .power a b
  | .function => do
    if t.size i ≠ 1 then throw (.unsupported (.rank kind.name outer.length))
    return .apply (t.funcs.getD i 0) a
  | .literal => return .fill (Array.replicate (t.size i).toInt.toNat (t.values.getD i A.zero))
  | .delta => do
    if binding.length ≠ 2 then throw (.unsupported (.symbol kind.name binding t.dim))
    return .fill (← symbolPattern A kind binding outer t.dim)
  | .epsilon => do
    if (binding.length : Int) ≠ t.dim.toInt then
      throw (.unsupported (.symbol kind.name binding t.dim))
    return .fill (← symbolPattern A kind binding outer t.dim)
  | .scalar | .constant => do
    let inner := Index.unique binding
    let ids := t.ids.row i
    if (ids.length : Int) ≠ (Layout.power t.dim (Int64.ofNat inner.length)).toInt then
      throw (.unsupported (.ids ids.length inner))
    let own ← IndexMap.make inner outer t.dim
    return if kind = .scalar then .readScalars ids own else .readConstants ids own
  | .derivative | .tensor => throw (.unsupported (.tag kind.name))

/-- The plan of node `i`. -/
def node (A : Arith α) (t : Tree α) (i : Nat) : Except Error (Node α) :=
  match t.kind? i with
  | none => .error (.unsupported (.tag (Kind.nameOfCode (t.tag i))))
  | some kind => do
    return ⟨kind, (t.offset i).toInt64, t.size i, ← step A t i kind⟩

/-- Names the node in an error, except in a fault, which speaks for itself. -/
def atNode {β : Type} (i : Nat) : Except Error β → Except Error β
  | .error (.fault f) => .error (.fault f)
  | result => Except.within (.node i) result

/-- The plan of a tree, which is checked first. -/
def ofTree (A : Arith α) (t : Tree α) : Except Error (Plan α) := do
  t.validate
  let nodes ← (List.range t.nodes).mapM fun i => atNode i (node A t i)
  return ⟨t.dim, nodes, (t.offset t.root).toInt64, t.size t.root, t.depth.toInt64⟩

end Plan

end Indicial
