/-!
# Alignment arithmetic

Sizes, offsets and point numbers are 64-bit integers that wrap around; division rounds towards
zero. This module rounds them to multiples, splits ranges of points into a part that can be taken in
whole batches and the parts around it, and says where memory of eight-byte elements meets a
boundary.
-/

namespace Indicial.Layout

/-- The bytes of one cache line. -/
def lineSize : Int64 := 64

/-- The bytes of one storage slot. -/
def slotSize : Int64 := 8

/-- How many slots fill one cache line. -/
def slotsPerLine : Int64 := lineSize / slotSize

/-- The number of points that are evaluated together in a batch. -/
def lanes : Int64 := 4

/-- `n` multiplied by itself `k` times, wrapping around; one for a negative `k`. -/
def power (n k : Int64) : Int64 := n ^ k.toInt.toNat

/-- The size rounded up to a boundary that is a power of two. -/
def alignSize (size align : Int64) : Int64 := (size + align - 1) &&& ~~~(align - 1)

/-- `n` rounded to a multiple of `step`, towards zero. -/
def alignDown (n step : Int64) : Int64 := n - n % step

/-- `n` rounded up to a multiple of `step`. -/
def alignUp (n step : Int64) : Int64 :=
  let r := n % step
  if r ≠ 0 then n + step - r else n

/-- The batched body of `[start, stop)`: it begins on a multiple of `step` and its length is one. -/
def splitRange (start stop step : Int64) : Int64 × Int64 :=
  if stop ≤ start then (start, start)
  else
    let bodyStart := alignUp start step
    if stop < bodyStart then (stop, stop)
    else (bodyStart, bodyStart + alignDown (stop - bodyStart) step)

/-- Whether an address lies on a boundary. -/
def isAligned (address align : UInt64) : Bool := address % align == 0

/-- How many of `count` eight-byte elements starting at an address come before the first that lies on
a boundary; all of them when none does. -/
def misalignedCount (address : UInt64) (count align : Int64) : Int64 :=
  if count = 0 then 0
  else
    let offset := (address % align.toUInt64).toInt64
    if offset = 0 then 0
    else if offset % slotSize ≠ 0 then count
    else min ((align - offset) / slotSize) count

end Indicial.Layout
