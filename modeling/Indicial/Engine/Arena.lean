import Indicial.Plan.Run

/-!
# Arenas

An arena is the private storage of one evaluation: a frame for single points and a frame for batches,
laid out one behind the other so that each begins on a cache line. A pool keeps idle arenas in the
order in which they came back, up to its capacity.
-/

namespace Indicial

/-- A range of slots of an arena. -/
structure Region where
  name : String
  offset : Int64
  size : Int64
deriving DecidableEq, Inhabited

/-- The storage of one evaluation. -/
structure Arena (α : Type) where
  point : Frame α
  batch : Frame α

namespace Arena

variable {α : Type}

/-- The regions of an arena for plans of a given depth: single points first, then batches. -/
def regions (depth : Int64) : Except Error (Region × Region) :=
  if depth < 0 then .error (.problem (.negativeDepth depth))
  else
    let depth := max depth 1
    let pointSize := Layout.alignSize depth Layout.slotsPerLine
    let batchSize := Layout.alignSize (depth * Layout.lanes) Layout.slotsPerLine
    .ok (⟨"Point", 0, pointSize⟩, ⟨"Lanes", pointSize, batchSize⟩)

/-- An arena for plans of a given depth, filled with `x`. -/
def make (depth : Int64) (x : α) : Except Error (Arena α) := do
  let (point, batch) ← regions depth
  return {
    point := ⟨1, Array.replicate point.size.toInt.toNat x⟩
    batch := ⟨Layout.lanes.toInt.toNat, Array.replicate batch.size.toInt.toNat x⟩ }

/-- The number of slots. -/
def slots (a : Arena α) : Nat := a.point.stack.size + a.batch.stack.size

/-- The frame of a width: one point or a whole batch. -/
def frame (a : Arena α) (width : Int64) : Except Fault (Frame α) :=
  if width = 1 then .ok a.point
  else if width = Layout.lanes then .ok a.batch
  else .error (.arenaWidth width.toInt)

end Arena

/-- Idle arenas, the one that came back first at the front. -/
structure Pool (β : Type) where
  capacity : Nat
  idle : List β

namespace Pool

variable {β : Type}

/-- A pool for up to `size` idle arenas, at least one. -/
def make (size : Int64) : Pool β := ⟨(max size 1).toInt.toNat, []⟩

/-- Takes the arena that has been idle longest, if there is one. -/
def get? (p : Pool β) : Option (β × Pool β) :=
  match p.idle with
  | [] => none
  | a :: rest => some (a, { p with idle := rest })

/-- Brings an arena back; a full pool lets it go. -/
def put (p : Pool β) (a : β) : Pool β :=
  if p.idle.length < p.capacity then { p with idle := p.idle ++ [a] } else p

end Pool

/-- The arena that a pool makes when it has none: a fault when it cannot be laid out. -/
def Arena.supply {α : Type} (depth : Int64) (x : α) : Except Fault (Arena α) :=
  match Arena.make depth x with
  | .ok a => .ok a
  | .error e => .error (.arenaDepth depth.toInt e.message)

end Indicial
