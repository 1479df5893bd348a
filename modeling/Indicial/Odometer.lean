import Indicial.Fault

/-!
# Row-major enumeration

An odometer counts through all lists of `k` digits below a radix, the last digit fastest. It steps
by carrying: the last digit that can still grow does so and all digits after it return to zero.
Every sum over labels and every table of components runs in this order, so the position of a digit
list in the count is its row-major position.
-/

namespace Indicial.Odometer

/-- The digit list after this one, or nothing when the count falls off the front. -/
def next (radix : Nat) : List Nat → Option (List Nat)
  | [] => none
  | d :: rest =>
    match next radix rest with
    | some rest' => some (d :: rest')
    | none => if d + 1 < radix then some ((d + 1) :: rest.map fun _ => 0) else none

/-- The digit lists from this one on, at most `fuel` of them. -/
def visitsFrom (radix : Nat) : (fuel : Nat) → List Nat → List (List Nat)
  | 0, _ => []
  | fuel + 1, digits =>
    digits :: match next radix digits with
      | some digits' => visitsFrom radix fuel digits'
      | none => []

/-- All lists of `k` digits below a positive radix, in row-major order. -/
def visits (k radix : Nat) : List (List Nat) :=
  visitsFrom radix (Nat.pow radix k) (List.replicate k 0)

/-- All lists of `k` digits below the radix, which has to be positive. -/
def run (k : Nat) (radix : Int) : Except Fault (List (List Nat)) :=
  if 0 < radix then .ok (visits k radix.toNat) else .error (.radixNotPositive radix)

/-- The position that digits have in row-major order, for given weights of the places. -/
def dot (digits weights : List Int) : Int := (digits.zipWith (· * ·) weights).foldr (· + ·) 0

/-- The sign of the permutation: the count of swaps that bring every value to its own place. The
place `i` is settled first; a swap moves the value found there to where it belongs. -/
def settle : (fuel : Nat) → Array Nat → (place : Nat) → (sign : Int) → Int
  | 0, _, _, sign => sign
  | fuel + 1, p, i, sign =>
    if h : i < p.size then
      let v := p[i]
      if v = i then settle fuel p (i + 1) sign
      else settle fuel (p.swapIfInBounds i v) i (-sign)
    else sign

/-- Whether the numbers are exactly those below their count, each once. -/
def isArrangement (digits : List Int) : Bool :=
  digits.all (fun d => 0 ≤ d && d < digits.length) && digits.eraseDups.length == digits.length

/-- One for an even permutation of the numbers below the length, minus one for an odd one, and zero
for a list that is no permutation of them. -/
def permutationSign (digits : List Int) : Int :=
  if isArrangement digits then
    settle (2 * digits.length) (digits.map Int.toNat).toArray 0 1
  else 0

end Indicial.Odometer
