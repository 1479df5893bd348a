import Indicial.Plan.Basic

/-!
# Running plans

Storage holds `width` values for each slot, one for each point of a batch: slot `s` of lane `l` is the
element `s * width + l`. A plan runs node by node; each node writes its own window from the windows of
its operands. Contractions first clear the window and then add one term for each assignment.

Every access is checked against the storage, so that running out of it is a result and not an accident.
-/

namespace Indicial

/-- The values of scalars: `field id point`. -/
abbrev Field (α : Type) := Int64 → Int64 → α

/-- What a run reads besides storage. -/
structure Inputs (α : Type) where
  field : Field α
  constants : Array α
  /-- The point of the first lane. -/
  point : Int64

/-- Storage for a batch of `width` points. -/
structure Frame (α : Type) where
  width : Nat
  stack : Array α

namespace Frame

variable {α : Type}

/-- Storage of `depth` slots, at least one, filled with `x`. -/
def make (depth width : Int64) (x : α) : Except Fault (Frame α) :=
  if 0 < width then
    .ok ⟨width.toInt.toNat, Array.replicate ((max depth 1).toInt.toNat * width.toInt.toNat) x⟩
  else .error (.frameWidth width.toInt)

/-- Whether a plan finds as many slots as it needs. -/
def fits (f : Frame α) (p : Plan α) : Bool :=
  (p.depth * Int64.ofNat f.width).toInt ≤ f.stack.size

/-- The value in a lane of a slot. -/
def read (f : Frame α) (slot : Int) (lane : Nat) : Except Fault α :=
  let place := slot * f.width + lane
  if place < 0 then .error .storage
  else match f.stack[place.toNat]? with
    | some x => .ok x
    | none => .error .storage

/-- Puts a value into a lane of a slot. -/
def write (f : Frame α) (slot : Int) (lane : Nat) (x : α) : Except Fault (Frame α) :=
  let place := slot * f.width + lane
  if place < 0 || (f.stack.size : Int) ≤ place then .error .storage
  else .ok { f with stack := f.stack.setIfInBounds place.toNat x }

/-- Checks that a window lies in storage. -/
def window (f : Frame α) (offset size : Int64) : Except Fault Unit :=
  let first := offset.toInt * f.width
  let last := (offset.toInt + size.toInt) * f.width
  if 0 ≤ first && first ≤ last && last ≤ f.stack.size then .ok () else .error .storage

/-- Does `body` for each number below `n` in turn. -/
def repeatM (n : Nat) (body : Nat → Frame α → Except Fault (Frame α)) (f : Frame α) :
    Except Fault (Frame α) :=
  (List.range n).foldlM (fun f k => body k f) f

/-- Does `body` for each lane. -/
def eachLane (body : Nat → Frame α → Except Fault (Frame α)) (f : Frame α) :
    Except Fault (Frame α) :=
  repeatM f.width body f

/-- Fills every lane of a window's slots with zero. -/
def clear (A : Arith α) (offset size : Int64) (f : Frame α) : Except Fault (Frame α) :=
  repeatM size.toInt.toNat
    (fun k => eachLane fun l f => f.write (offset.toInt + k) l A.zero) f

/-- Adds `x` to a lane of a slot. -/
def accumulate (A : Arith α) (slot : Int) (lane : Nat) (x : α) (f : Frame α) :
    Except Fault (Frame α) := do
  let y ← f.read slot lane
  f.write slot lane (A.add y x)

end Frame

namespace Plan

variable {α : Type}

/-- The number of assignments that maps and a window together run over. -/
def assignments (maps : List IndexMap) (size : Int64) : Nat :=
  maps.foldl (fun n m => max n m.length) size.toInt.toNat

/-- A sum or difference, component by component. -/
def runElementwise (op : α → α → α) (offset size a b : Int64) (right : IndexMap) (f : Frame α) :
    Except Fault (Frame α) := do
  f.window offset size
  f.window a size
  f.window b size
  f.repeatM (assignments [right] size) fun k f => do
    let q ← right.get k
    f.eachLane fun l f => do
      let x ← f.read (a.toInt + k) l
      let y ← f.read (b.toInt + q) l
      f.write (offset.toInt + k) l (op x y)

/-- A product or ratio: one term for each assignment of the labels of both operands. -/
def runContraction (A : Arith α) (op : α → α → α) (offset size a b : Int64)
    (own left right : IndexMap) (f : Frame α) : Except Fault (Frame α) := do
  f.window offset size
  let f ← f.clear A offset size
  f.repeatM (assignments [own, left, right] size) fun k f => do
    let o ← own.get k
    let p ← left.get k
    let q ← right.get k
    f.eachLane fun l f => do
      let x ← f.read (a.toInt + p) l
      let y ← f.read (b.toInt + q) l
      f.accumulate A (offset.toInt + o) l (op x y)

/-- A relabelling, which sums over labels that are repeated. -/
def runRelabel (A : Arith α) (offset size a : Int64) (own left : IndexMap) (f : Frame α) :
    Except Fault (Frame α) := do
  f.window offset size
  let f ← f.clear A offset size
  f.repeatM (assignments [own, left] size) fun k f => do
    let o ← own.get k
    let p ← left.get k
    f.eachLane fun l f => do
      let x ← f.read (a.toInt + p) l
      f.accumulate A (offset.toInt + o) l x

/-- A leaf: the values of its ids, added at their positions. -/
def runLeaf (A : Arith α) (value : Int32 → Nat → Except Fault α) (offset size : Int64)
    (ids : List Int32) (own : IndexMap) (f : Frame α) : Except Fault (Frame α) := do
  f.window offset size
  let f ← f.clear A offset size
  ids.zipIdx.foldlM (fun f entry => do
    let o ← own.get entry.2
    f.eachLane fun l f => do
      let x ← value entry.1 l
      f.accumulate A (offset.toInt + o) l x) f

/-- The value of a constant. -/
def constantValue (inputs : Inputs α) (e : Int32) : Except Fault α :=
  if e < 0 then .error .storage
  else match inputs.constants[e.toInt.toNat]? with
    | some x => .ok x
    | none => .error .storage

/-- Does what a node says. -/
def Node.run (A : Arith α) (inputs : Inputs α) (n : Node α) (f : Frame α) :
    Except Fault (Frame α) :=
  match n.step with
  | .add a b right => runElementwise A.add n.offset n.size a b right f
  | .subtract a b right => runElementwise A.sub n.offset n.size a b right f
  | .multiply a b own left right => runContraction A A.mul n.offset n.size a b own left right f
  | .divide a b own left right => runContraction A A.div n.offset n.size a b own left right f
  | .relabel a own left => runRelabel A n.offset n.size a own left f
  | .negate a => do
    f.window n.offset n.size
    f.window a n.size
    f.repeatM n.size.toInt.toNat fun k => Frame.eachLane fun l f => do
      let x ← f.read (a.toInt + k) l
      f.write (n.offset.toInt + k) l (A.neg x)
  | .power a b => do
    f.window n.offset 1
    f.window a 1
    f.window b 1
    f.eachLane fun l f => do
      let x ← f.read a.toInt l
      let y ← f.read b.toInt l
      f.write n.offset.toInt l (A.pow x y)
  | .apply code a => do
    f.window n.offset 1
    f.window a 1
    f.eachLane fun l f => do
      let x ← f.read a.toInt l
      f.write n.offset.toInt l (A.apply (← Func.ofCode code) x)
  | .fill values => do
    f.window n.offset n.size
    values.toList.zipIdx.foldlM (fun f entry =>
      f.eachLane fun l f => f.write (n.offset.toInt + entry.2) l entry.1) f
  | .readScalars ids own =>
    runLeaf A (fun e l => .ok (inputs.field e.toInt64 (inputs.point + Int64.ofNat l)))
      n.offset n.size ids own f
  | .readConstants ids own =>
    runLeaf A (fun e _ => constantValue inputs e) n.offset n.size ids own f

/-- Evaluates every node in turn. -/
def run (A : Arith α) (inputs : Inputs α) (p : Plan α) (f : Frame α) : Except Fault (Frame α) :=
  p.nodes.foldlM (fun f n => n.run A inputs f) f

/-- The value of a root component in a lane. -/
def result (p : Plan α) (f : Frame α) (component lane : Nat) : Except Fault α :=
  if p.rootSize.toInt ≤ component then .error .storage
  else f.read (p.root.toInt + component) lane

/-- The whole root window, lane by lane for each component. -/
def results (p : Plan α) (f : Frame α) : Except Fault (List α) := do
  f.window p.root p.rootSize
  let rows ← (List.range p.rootSize.toInt.toNat).mapM fun o =>
    (List.range f.width).mapM fun l => p.result f o l
  return rows.flatten

end Plan

end Indicial
