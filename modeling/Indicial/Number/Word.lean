/-!
# Signed words

Integers of the domain are machine words of 64 bits. This module says which numbers have one.
-/

namespace Indicial.Number

/-- The first number that is too large for a signed 64-bit word, `2 ^ 63`. -/
def wordLimit : Nat := 0x8000000000000000

/-- Whether the number fits a signed 64-bit word. -/
def fitsWord (n : Int) : Bool := -wordLimit ≤ n && n < wordLimit

end Indicial.Number
