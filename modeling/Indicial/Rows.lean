import Indicial.Error

/-!
# Rows of varying length

One row for each node of a tree, stored end to end in a shared array. The offsets have one entry more
than there are rows: row `i` stands between offset `i` and offset `i + 1`.
-/

namespace Indicial

/-- Rows in a shared array. -/
structure Rows (α : Type) where
  offsets : Array Int32
  data : Array α
deriving DecidableEq, Inhabited

namespace Rows

variable {α : Type}

/-- No rows. -/
def empty : Rows α := ⟨#[], #[]⟩

/-- One more row at the end. -/
def push (c : Rows α) (row : List α) : Rows α :=
  let data := c.data ++ row.toArray
  let offsets := if c.offsets.isEmpty then #[0] else c.offsets
  ⟨offsets.push (Int32.ofNat data.size), data⟩

/-- The number of rows. -/
def size (c : Rows α) : Nat := c.offsets.size - 1

/-- An offset as a position, zero when it is missing or negative. -/
def offset (c : Rows α) (i : Nat) : Nat := (c.offsets.getD i 0).toInt.toNat

/-- The length of a row, as the offsets have it. -/
def length (c : Rows α) (i : Nat) : Int64 :=
  (c.offsets.getD (i + 1) 0 - c.offsets.getD i 0).toInt64

/-- Row `i`. -/
def row (c : Rows α) (i : Nat) : List α := (c.data.extract (c.offset i) (c.offset (i + 1))).toList

/-- The first row whose end lies before its beginning. -/
def decrease? (c : Rows α) (rows : Nat) : Option Nat :=
  (List.range rows).find? fun i => c.offsets.getD (i + 1) 0 < c.offsets.getD i 0

/-- Checks that there are `rows` rows and that they cover the data from end to end. -/
def validate (c : Rows α) (table : String) (rows : Nat) : Except Error Unit :=
  if c.size ≠ rows then .error (.tree (.rows table c.size rows))
  else if rows = 0 then .ok ()
  else if c.offsets.getD 0 0 ≠ 0 || (c.offsets.getD rows 0).toInt ≠ c.data.size then
    .error (.tree (.span table))
  else match c.decrease? rows with
    | some i => .error (.tree (.decrease table i))
    | none => .ok ()

end Rows

end Indicial
