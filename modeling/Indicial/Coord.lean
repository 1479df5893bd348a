import Indicial.Fault

/-!
# Coordinates

A coordinate is a tuple of at most eight numbers below 256. It names a component of a tensor, one
entry for each index, or a multiset of derivative directions, whose canonical form is sorted.
-/

namespace Indicial

/-- A tuple of small numbers. -/
structure Coord where
  values : List UInt8
deriving DecidableEq, Inhabited

namespace Coord

/-- The largest number of entries. -/
def capacity : Nat := 8

/-- The coordinate without entries. -/
def empty : Coord := ⟨[]⟩

/-- The entry of a number, which has to be below 256. -/
def entry (x : Int) : Except Fault UInt8 :=
  if 0 ≤ x && x < 256 then .ok x.toNat.toUInt8 else .error (.coordValue x)

/-- The coordinate with the given entries. -/
def ofInts (xs : List Int) : Except Fault Coord :=
  if xs.length ≤ capacity then Coord.mk <$> xs.mapM entry else .error (.coordTooLong xs.length)

/-- The number of entries. -/
def size (c : Coord) : Nat := c.values.length

/-- The entry at a position. -/
def get (c : Coord) (position : Int) : Except Fault UInt8 :=
  match position with
  | .ofNat i => match c.values[i]? with
    | some v => .ok v
    | none => .error (.coordPosition position)
  | .negSucc _ => .error (.coordPosition position)

/-- One more entry at the end. -/
def push (c : Coord) (x : Int) : Except Fault Coord :=
  if c.size < capacity then (fun v => ⟨c.values ++ [v]⟩) <$> entry x else .error .coordOverflow

/-- The entries in ascending order. -/
def sorted (c : Coord) : Coord := ⟨c.values.mergeSort (· ≤ ·)⟩

/-- Lexicographic order of entries. -/
def lessEntries : List UInt8 → List UInt8 → Bool
  | a :: as, b :: bs => if a == b then lessEntries as bs else a < b
  | [], _ :: _ => true
  | _, [] => false

/-- Order by length, then lexicographically. -/
def less (a b : Coord) : Bool :=
  if a.size = b.size then lessEntries a.values b.values else a.size < b.size

/-- The largest entry, or -1 when there is none. -/
def max (c : Coord) : Int := c.values.foldl (fun m v => if m < v.toNat then v.toNat else m) (-1)

/-- The entries in decimal, separated by commas. -/
def toBytes (c : Coord) : Bytes := Bytes.join [44] (c.values.map fun v => Bytes.ofNat v.toNat)

end Coord

end Indicial
