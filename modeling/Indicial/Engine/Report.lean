import Indicial.Number.Binary64
import Indicial.Number.Decimal
import Indicial.Program.Basic

/-!
# Summaries

A table of the least, the greatest and the mean value of every output.
-/

namespace Indicial

namespace Report

/-- The smaller number. Negative infinity is smaller than everything, then a not-a-number counts, and
the negative zero is smaller than the positive one. -/
def smaller (x y : Float) : Float :=
  let inf := -(1.0 / 0.0)
  if x == inf || y == inf then inf
  else if x.isNaN || y.isNaN then 0.0 / 0.0
  else if x == 0.0 && y == 0.0 then (if (Binary64.ofFloat x).signed then x else y)
  else if x < y then x else y

/-- The greater number, by the same rules turned around. -/
def greater (x y : Float) : Float :=
  let inf := 1.0 / 0.0
  if x == inf || y == inf then inf
  else if x.isNaN || y.isNaN then 0.0 / 0.0
  else if x == 0.0 && y == 0.0 then (if (Binary64.ofFloat x).signed then y else x)
  else if x > y then x else y

/-- Least, greatest and sum of the values seen so far. -/
structure Summary where
  least : Float
  greatest : Float
  total : Float

def Summary.start : Summary := ⟨1.0 / 0.0, -(1.0 / 0.0), 0.0⟩

def Summary.add (s : Summary) (x : Float) : Summary :=
  ⟨smaller s.least x, greater s.greatest x, s.total + x⟩

/-- A number in a column of fourteen places. -/
def number (x : Float) : Bytes :=
  let text := (Binary64.ofFloat x).toSixDigits
  Bytes.padLeft 14 text.length text

/-- A heading in a column of fourteen places. -/
def heading (s : String) : Bytes := Bytes.padLeft 14 s.length (Bytes.ofString s)

/-- A name in a column of twenty-four places. -/
def label (name : Bytes) : Bytes := Bytes.padRight 24 (Utf8.count name) name

/-- One line of the table. -/
def line (out : Array Float) (width points slot : Nat) (key : Bytes) : Bytes :=
  let s := (List.range points).foldl (fun s p => s.add (out.getD (p * width + slot) 0.0)) Summary.start
  label key ++ " " ++ number s.least ++ " " ++ number s.greatest ++ " "
    ++ number (s.total / Float.ofNat points) ++ "\n"

/-- The table of all outputs. -/
def summary {α : Type} (p : Program α) (out : Array Float) : Except Fault Bytes := do
  let width := p.width.toInt.toNat
  let points := out.size / width
  let keys ← p.outputKeys
  return label (Bytes.ofString "output") ++ " " ++ heading "min" ++ " " ++ heading "max" ++ " "
    ++ heading "mean" ++ "\n"
    ++ keys.zipIdx.flatMap fun entry => line out width points entry.2 entry.1

end Report

end Indicial
