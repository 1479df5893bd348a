import Indicial.Engine.Arena
import Indicial.Program.Basic

/-!
# Evaluating programs

An engine is a checked program with the plan of every kernel. It evaluates a range of points in three
parts: single points up to the first whole batch, batches, and the single points that remain. Results
go to a flat vector, the outputs of a point next to each other, or to one column for each output.
Parallel evaluation hands out chunks of a fixed number of points.

The numbers are of any type with the operations of `Arith`. Point numbers and positions are 64-bit
integers that wrap around.
-/

namespace Indicial

/-- Counts of evaluated points. -/
structure Stats where
  scalar : Int64
  lane : Int64
  chunks : Int64
deriving DecidableEq, Inhabited

namespace Stats

/-- Nothing evaluated. -/
def zero : Stats := ⟨0, 0, 0⟩

def add (a b : Stats) : Stats := ⟨a.scalar + b.scalar, a.lane + b.lane, a.chunks + b.chunks⟩

/-- All evaluated points. -/
def points (s : Stats) : Int64 := s.scalar + s.lane

end Stats

/-- A program ready to be evaluated. -/
structure Engine (α : Type) where
  program : Program α
  plans : List (Plan α)
  /-- The storage that the most demanding plan needs. -/
  depth : Int64
  workers : Int64
  chunk : Int64

/-- Where results go. -/
inductive Sink (α : Type) where
  /-- `width` values for each point, beginning with the point `origin`. -/
  | flat (out : Array α) (width origin : Int64)
  /-- A column of points for each output. -/
  | columns (out : Array (Array α))

namespace Sink

variable {α : Type}

/-- Writes one output of a point. -/
def put (s : Sink α) (slot : Int32) (point : Int64) (x : α) : Except Fault (Sink α) :=
  match s with
  | flat out width origin =>
    let place := ((point - origin) * width + slot.toInt64).toInt
    if place < 0 || (out.size : Int) ≤ place then .error .storage
    else .ok (flat (out.setIfInBounds place.toNat x) width origin)
  | columns out =>
    if slot < 0 || point < 0 then .error .storage
    else
      let i := slot.toInt.toNat
      let j := point.toInt.toNat
      match out[i]? with
      | none => .error .storage
      | some column =>
        if column.size ≤ j then .error .storage
        else .ok (columns (out.modify i fun c => c.setIfInBounds j x))

end Sink

namespace Engine

variable {α : Type}

/-- The number of workers when none is asked for. Results do not depend on it. -/
def defaultWorkers : Int64 := 1

/-- The number of points of a chunk when none is asked for. -/
def defaultChunk : Int64 := 1024

/-- Checks a program and plans its kernels. Options that are not positive stand for the defaults; a
chunk is a whole number of batches. -/
def make (A : Arith α) (p : Program α) (workers chunk : Int64) : Except Error (Engine α) := do
  Except.within .validateProgram p.validate
  let plans ← p.trees.zipIdx.mapM fun entry =>
    Except.within (.planKernel entry.2) (Plan.ofTree A entry.1)
  return {
    program := p
    plans
    depth := p.stackDepth
    workers := if 0 < workers then workers else defaultWorkers
    chunk := Layout.alignUp (if 0 < chunk then chunk else defaultChunk) Layout.lanes }

/-- The number of outputs of a point. -/
def width (e : Engine α) : Int64 := e.program.width

/-- The catalog of the program. -/
def catalog (e : Engine α) : Catalog := e.program.catalog.getD ⟨[], []⟩

/-- The arena of an evaluation. -/
def arena (e : Engine α) (x : α) : Except Fault (Arena α) := Arena.supply e.depth x

/-- Checks the inputs against the catalog; without a field no scalar must be read. -/
def check (e : Engine α) (field : Option (Field α)) (constants : Array α) : Except Error Unit :=
  if field.isNone && !e.catalog.scalars.isEmpty then .error (.shape .noSource)
  else if constants.size ≠ e.catalog.constants.length then
    .error (.shape (.constants constants.size e.catalog.constants.length))
  else .ok ()

/-- Checks a range of points against the length of the output. -/
def checkRange (e : Engine α) (start stop : Int64) (size : Nat) : Except Error Unit :=
  if start < 0 || stop < start then .error (.shape (.range start stop))
  else if (size : Int) < (stop * e.width).toInt then
    .error (.shape (.outputRange size stop e.width))
  else .ok ()

/-- Sends the root components of one kernel to their outputs, for every lane. -/
def scatter (p : Plan α) (targets : List Int32) (f : Frame α) (point : Int64) (s : Sink α) :
    Except Fault (Sink α) := do
  f.window p.root p.rootSize
  targets.zipIdx.foldlM (fun s entry =>
    (List.range f.width).foldlM (fun s l => do
      let x ← p.result f entry.2 l
      s.put entry.1 (point + Int64.ofNat l) x) s) s

/-- Evaluates every kernel for the points of a frame, the first of them being `point`. -/
def run (A : Arith α) (e : Engine α) (field : Field α) (constants : Array α) (point : Int64)
    (f : Frame α) (s : Sink α) : Except Fault (Frame α × Sink α) :=
  (e.plans.zip e.program.kernels).foldlM (fun (f, s) (p, k) => do
    let f ← p.run A ⟨field, constants, point⟩ f
    let s ← scatter p k.targets f point s
    return (f, s)) (f, s)

/-- The points from `start` up to `stop` in steps. -/
def pointsFrom (start stop step : Int64) : List Int64 :=
  let count := (stop.toInt - start.toInt + step.toInt - 1) / step.toInt
  (List.range count.toNat).map fun k => start + Int64.ofNat k * step

/-- Evaluates a frame at each of the points. -/
def runAll (A : Arith α) (e : Engine α) (field : Field α) (constants : Array α)
    (points : List Int64) (f : Frame α) (s : Sink α) : Except Fault (Frame α × Sink α) :=
  points.foldlM (fun (f, s) point => e.run A field constants point f s) (f, s)

/-- The batched part of a range. Batches begin at points congruent to `align` modulo their width. -/
def body (start stop align : Int64) : Int64 × Int64 :=
  let shift := Layout.lanes - align % Layout.lanes
  let (first, last) := Layout.splitRange (start + shift) (stop + shift) Layout.lanes
  (first - shift, last - shift)

/-- Evaluates the points from `start` up to `stop`. -/
def span (A : Arith α) (e : Engine α) (field : Field α) (constants : Array α)
    (start stop align : Int64) (a : Arena α) (s : Sink α) :
    Except Fault (Arena α × Sink α × Stats) := do
  let (first, last) := body start stop align
  let (point, s) ← e.runAll A field constants (pointsFrom start first 1) a.point s
  let (batch, s) ← e.runAll A field constants (pointsFrom first last Layout.lanes) a.batch s
  let (point, s) ← e.runAll A field constants (pointsFrom last stop 1) point s
  return (⟨point, batch⟩, s, ⟨stop - start - (last - first), last - first, 0⟩)

/-- The field, or zero where none is read. -/
def fieldOr (A : Arith α) (field : Option (Field α)) : Field α :=
  field.getD fun _ _ => A.zero

/-- The flat output of a sink. -/
def flatOut : Sink α → Array α
  | .flat out _ _ => out
  | .columns _ => #[]

/-- The columns of a sink. -/
def columnsOut : Sink α → Array (Array α)
  | .flat .. => #[]
  | .columns out => out

/-- Evaluates one point into the first outputs of `out`. -/
def evaluate (A : Arith α) (e : Engine α) (a : Arena α) (point : Int64)
    (field : Option (Field α)) (constants out : Array α) : Except Error (Array α × Stats) := do
  e.check field constants
  if (out.size : Int) < e.width.toInt then throw (.shape (.output out.size e.width))
  let (_, s) ← e.run A (fieldOr A field) constants point a.point (.flat out e.width point)
  return (flatOut s, ⟨1, 0, 0⟩)

/-- Evaluates the points from `start` up to `stop`. The output of a point stands at its number times
the width. -/
def evaluateRange (A : Arith α) (e : Engine α) (a : Arena α) (start stop : Int64)
    (field : Option (Field α)) (constants out : Array α) : Except Error (Array α × Stats) := do
  e.checkRange start stop out.size
  e.check field constants
  let (_, s, stats) ← e.span A (fieldOr A field) constants start stop 0 a (.flat out e.width 0)
  return (flatOut s, stats)

/-- Evaluates the first `n` points. -/
def evaluateArray (A : Arith α) (e : Engine α) (a : Arena α) (n : Int64)
    (field : Option (Field α)) (constants out : Array α) : Except Error (Array α × Stats) :=
  e.evaluateRange A a 0 n field constants out

/-- The points of chunk `c`. -/
def chunkRange (e : Engine α) (n c : Int64) : Int64 × Int64 :=
  let start := c * e.chunk
  (start, min (start + e.chunk) n)

/-- The number of chunks for `n` points. -/
def chunkCount (e : Engine α) (n : Int64) : Int64 := (n + e.chunk - 1) / e.chunk

/-- Evaluates the first `n` points chunk by chunk. No worker starts a chunk once the evaluation is
cancelled; which worker takes which chunk does not matter, because chunks are disjoint and results
depend on the point alone. -/
def evaluateParallel (A : Arith α) (e : Engine α) (a : Arena α) (cancelled : Bool) (n : Int64)
    (field : Option (Field α)) (constants out : Array α) : Except Error (Array α × Stats) := do
  e.checkRange 0 n out.size
  e.check field constants
  let chunks := e.chunkCount n
  if chunks ≤ 0 then return (out, Stats.zero)
  if cancelled then throw (.within .parallel (.problem .cancelled))
  let (_, s, stats) ← (List.range chunks.toInt.toNat).foldlM (fun (a, s, stats) c => do
    let (start, stop) := e.chunkRange n (Int64.ofNat c)
    let (a, s, more) ← e.span A (fieldOr A field) constants start stop 0 a s
    return (a, s, (stats.add more).add ⟨0, 0, 1⟩)) (a, Sink.flat out e.width 0, Stats.zero)
  return (flatOut s, stats)

/-- One column for each scalar and for each output. -/
structure Columns (α : Type) where
  fields : Array (Array α)
  out : Array (Array α)
  /-- The address of the first output column. -/
  address : UInt64

namespace Columns

/-- The number of points. -/
def length (c : Columns α) : Nat :=
  match c.out[0]? with
  | some column => column.size
  | none => 0

/-- The value of a scalar at a point. -/
def field (A : Arith α) (c : Columns α) : Field α := fun id point =>
  match c.fields[id.toInt.toNat]? with
  | some column => column.getD point.toInt.toNat A.zero
  | none => A.zero

end Columns

/-- Checks the columns against the program. -/
def checkColumns (e : Engine α) (c : Columns α) : Except Error Unit := do
  if (c.out.size : Int) ≠ e.width.toInt then
    throw (.shape (.outputColumns c.out.size e.width))
  if c.fields.size ≠ e.catalog.scalars.length then
    throw (.shape (.fieldColumns c.fields.size e.catalog.scalars.length))
  if c.out.any fun column => column.size ≠ c.length then throw (.shape .outputLengths)
  match (e.catalog.scalars.zip c.fields.toList).find? fun entry => entry.2.size < c.length with
  | some (r, column) => throw (.shape (.fieldLength r.key column.size c.length))
  | none => return ()

/-- Evaluates every point of the columns. Batches begin where the first output column reaches an
address that is a multiple of their size. -/
def evaluateColumns (A : Arith α) (e : Engine α) (a : Arena α) (c : Columns α)
    (constants : Array α) : Except Error (Array (Array α) × Stats) := do
  e.checkColumns c
  e.check (some (c.field A)) constants
  let n := Int64.ofNat c.length
  let align := Layout.misalignedCount c.address n (Layout.lanes * Layout.slotSize)
  let (_, s, stats) ← e.span A (c.field A) constants 0 n align a (.columns c.out)
  return (columnsOut s, stats)

end Engine

end Indicial
