import Indicial.Plan.Run
import Indicial.Program.Basic

/-!
# Sample fields

Deterministic fields to evaluate programs on: three that run through a short cycle of numbers, one that
is read from a table, and a smooth one in which every scalar has its own phase and every derivative
direction changes the scale.
-/

namespace Indicial

/-- The scale of a scalar in the smooth field: each derivative direction multiplies it. -/
def Coord.sampleScale (derivs : Coord) : Float :=
  derivs.values.foldl (fun s d => s * (0.5 + 0.25 * Float.ofNat d.toNat)) 1.0

/-- The smooth field of scalars with given scales. -/
def smoothField (scales : Array Float) : Field Float := fun id point =>
  scales.getD id.toInt.toNat 0.0
    * Float.sin (0.001 * Float.ofInt point.toInt + 0.7 * Float.ofInt id.toInt)

/-- The scales of a catalog's scalars. -/
def Catalog.sampleScales (c : Catalog) : Array Float :=
  (c.scalars.map fun r => r.derivs.sampleScale).toArray

/-- A choice of field. -/
inductive Sample where
  /-- Sevenths of both signs. -/
  | fraction
  /-- Positive sevenths. -/
  | positive
  /-- Integers of both signs. -/
  | whole
  /-- A row for each scalar, repeated over the points. -/
  | table (rows : Array (Array Float))
  | smooth
  /-- No field at all. -/
  | absent

namespace Sample

/-- A number below 23 that changes with the scalar and the point. -/
def cycle (id point : Int64) : Int := (id * 37 + point * 11 + 5).toInt % 23

/-- The field of a choice, over the scalars of a catalog. -/
def field (c : Catalog) : Sample → Option (Field Float)
  | .fraction => some fun id point => Float.ofInt (cycle id point - 9) / 7.0
  | .positive => some fun id point => Float.ofInt (cycle id point + 1) / 7.0
  | .whole => some fun id point => Float.ofInt ((id * 5 + point * 3).toInt % 13 - 6)
  | .table rows => some fun id point =>
    let row := rows.getD id.toInt.toNat #[]
    row.getD (point.toInt % row.size).toNat 0.0
  | .smooth => some (smoothField c.sampleScales)
  | .absent => none

end Sample

end Indicial
