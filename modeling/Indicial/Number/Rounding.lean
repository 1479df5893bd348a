/-!
# Rounding a quotient

Every number that leaves exact arithmetic here, towards binary or towards decimal, is rounded by
the one rule of this module: to the nearest integer, a tie to the even one.
-/

namespace Indicial

/-- The integer nearest to `num / den`; halfway between two, the even one. -/
def roundDiv (num den : Nat) : Nat :=
  let q := num / den
  let r := num % den
  if 2 * r < den then q
  else if den < 2 * r then q + 1
  else if q % 2 = 0 then q else q + 1

end Indicial
