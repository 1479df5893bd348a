import Indicial.Layout
import Mathlib.Algebra.Order.Ring.Int
import Mathlib.Tactic.Ring

/-!
# Exact words

Words wrap around, but sizes, offsets and points that occur stay far below their limits. A word is then
the image of a natural number, and since `Int64.ofNat` and `Int32.ofNat` respect sums and products,
so is everything computed from such words; only comparing and reading back need the number to fit.

* `power_ofNat`: a power of words is the word of the power.
* `le_alignSize`: rounding a size up to a cache line does not lose slots.
* `splitRange_bounds`: the batched body of a range lies in it and is a whole number of steps.
-/

namespace Indicial

/-! ### Reading words back -/

section Words

variable {a b : Int64}

/-- Words are added as numbers if the sum is a word. -/
lemma toInt_add_of_lt (hlo : -2 ^ 63 ≤ a.toInt + b.toInt) (hhi : a.toInt + b.toInt < 2 ^ 63) :
    (a + b).toInt = a.toInt + b.toInt := by
  rw [Int64.toInt_add]
  exact Int.bmod_eq_of_le (by omega) (by omega)

/-- Words are subtracted as numbers if the difference is a word. -/
lemma toInt_sub_of_lt (hlo : -2 ^ 63 ≤ a.toInt - b.toInt) (hhi : a.toInt - b.toInt < 2 ^ 63) :
    (a - b).toInt = a.toInt - b.toInt := by
  rw [Int64.toInt_sub]
  exact Int.bmod_eq_of_le (by omega) (by omega)

/-- Words are multiplied as numbers if the product is a word. -/
lemma toInt_mul_of_lt (hlo : -2 ^ 63 ≤ a.toInt * b.toInt) (hhi : a.toInt * b.toInt < 2 ^ 63) :
    (a * b).toInt = a.toInt * b.toInt := by
  rw [Int64.toInt_mul]
  exact Int.bmod_eq_of_le (by omega) (by omega)

/-- A word that is not negative is the word of a natural number. -/
lemma ofNat_toNat_toInt (h : 0 ≤ a.toInt) : Int64.ofNat a.toInt.toNat = a := by
  rw [← Int64.ofInt_eq_ofNat, Int.toNat_of_nonneg h, Int64.ofInt_toInt]

/-- A word that is not negative is the word of a number. -/
lemma exists_eq_ofNat (h : 0 ≤ a.toInt) : ∃ n : Nat, n < 2 ^ 63 ∧ a = Int64.ofNat n := by
  refine ⟨a.toInt.toNat, ?_, (ofNat_toNat_toInt h).symm⟩
  have := a.toInt_lt
  omega

/-- Small words can be widened. -/
lemma toInt64_ofNat_of_lt {n : Nat} (h : n < 2 ^ 31) : (Int32.ofNat n).toInt64 = Int64.ofNat n := by
  apply Int32.toInt64_ofNat'
  have hmax : Int32.maxValue.toInt = 2 ^ 31 - 1 := rfl
  omega

/-- The word of a number below `2 ^ 63` has that number. -/
lemma toNat_toInt_ofNat {n : Nat} (h : n < 2 ^ 63) : (Int64.ofNat n).toInt.toNat = n := by
  rw [Int64.toInt_ofNat_of_lt h]
  rfl

/-- The short word of a number below `2 ^ 31` has that number. -/
lemma toInt32_ofNat_of_lt {n : Nat} (h : n < 2 ^ 31) : (Int32.ofNat n).toInt = n :=
  Int32.toInt_ofNat_of_lt h

/-- The larger of two words is the one with the larger number. -/
lemma toInt_max (a b : Int64) : (max a b).toInt = max a.toInt b.toInt := by
  have hmax : max a b = if a ≤ b then b else a := rfl
  rw [hmax]
  split
  · rename_i h
    rw [Int64.le_iff_toInt_le] at h
    omega
  · rename_i h
    rw [Int64.le_iff_toInt_le] at h
    omega

/-- The smaller of two words is the one with the smaller number. -/
lemma toInt_min (a b : Int64) : (min a b).toInt = min a.toInt b.toInt := by
  have hmin : min a b = if a ≤ b then a else b := rfl
  rw [hmin]
  split
  · rename_i h
    rw [Int64.le_iff_toInt_le] at h
    omega
  · rename_i h
    rw [Int64.le_iff_toInt_le] at h
    omega

end Words

namespace Layout

/-- Powers of words are words of powers. -/
lemma power_ofNat (n : Nat) {k : Nat} (h : k < 2 ^ 63) :
    power (Int64.ofNat n) (Int64.ofNat k) = Int64.ofNat (n ^ k) := by
  rw [power, toNat_toInt_ofNat h]
  clear h
  induction k with
  | zero => rfl
  | succ k ih => rw [Int64.pow_succ, ih, pow_succ, Int64.ofNat_mul]

/-- The largest dimension and the largest rank bound the number of components. -/
lemma components_le {D r : Nat} (hD : D ≤ 16) (hr : r ≤ 8) : D ^ r ≤ 16 ^ 8 :=
  (Nat.pow_le_pow_left hD r).trans (Nat.pow_le_pow_right (by decide) hr)

/-! ### Rounding to a cache line -/

/-- Clearing the three low bits is shifting them out and back in. -/
private lemma and_not_seven (x : BitVec 64) : x &&& ~~~7#64 = (x >>> 3) <<< 3 := by
  apply BitVec.eq_of_getLsbD_eq
  intro i hi
  have hbits : Nat.testBit 7 i = decide (i < 3) := Nat.testBit_two_pow_sub_one 3 i
  have hseven : (7#64).getLsbD i = decide (i < 3) := by
    rw [BitVec.getLsbD_ofNat, hbits]
    simp [hi]
  simp only [BitVec.getLsbD_and, BitVec.getLsbD_not, hseven, BitVec.getLsbD_shiftLeft,
    BitVec.getLsbD_ushiftRight, hi, decide_true, Bool.true_and]
  by_cases h : i < 3
  · simp [h]
  · have hback : 3 + (i - 3) = i := by omega
    simp [h, hback]

/-- A size rounded up to a cache line is at least that size. -/
lemma le_alignSize {n : Nat} (h : n < 2 ^ 60) :
    (n : Int) ≤ (alignSize (Int64.ofNat n) slotsPerLine).toInt := by
  have hline : slotsPerLine = 8 := rfl
  have hsum : Int64.ofNat n + 8 - 1 = Int64.ofNat (n + 7) := by
    rw [Int64.ofNat_add, Int64.sub_eq_add_neg, Int64.add_assoc]
    rfl
  have hmask : ((8 : Int64) - 1).toBitVec = 7#64 := rfl
  have hnat : (Int64.ofNat (n + 7)).toBitVec.toNat = n + 7 := by
    rw [Int64.toBitVec_ofNat', BitVec.toNat_ofNat]
    exact Nat.mod_eq_of_lt (by omega)
  rw [alignSize, hline, hsum, ← Int64.toInt_toBitVec, Int64.toBitVec_and, Int64.toBitVec_not, hmask,
    and_not_seven]
  have hround : (((Int64.ofNat (n + 7)).toBitVec >>> 3) <<< 3).toNat = (n + 7) / 8 * 8 := by
    rw [BitVec.toNat_shiftLeft, BitVec.toNat_ushiftRight, hnat, Nat.shiftRight_eq_div_pow,
      Nat.shiftLeft_eq]
    exact Nat.mod_eq_of_lt (by omega)
  rw [BitVec.toInt_eq_toNat_of_lt (by rw [hround]; omega), hround]
  omega

/-! ### Splitting ranges -/

section Split

variable {start stop step : Int64}

/-- Rounding up reaches the next multiple at most one step further. -/
lemma alignUp_bounds (hstart : 0 ≤ start.toInt) (hstep : 0 < step.toInt)
    (hfit : start.toInt + step.toInt < 2 ^ 63) :
    start.toInt ≤ (alignUp start step).toInt ∧
      (alignUp start step).toInt < start.toInt + step.toInt := by
  have hmod : (start % step).toInt = start.toInt % step.toInt := by
    rw [Int64.toInt_mod, Int.tmod_eq_emod_of_nonneg hstart]
  have hlow := Int.emod_nonneg start.toInt (by omega : step.toInt ≠ 0)
  have hhigh := Int.emod_lt_of_pos start.toInt hstep
  unfold alignUp
  simp only
  split
  · rename_i hne
    have hpos : 0 < start.toInt % step.toInt := by
      rcases lt_or_eq_of_le hlow with hlt | heq
      · exact hlt
      · have hzero : start % step = 0 := Int64.toInt_inj.1 (hmod.trans heq.symm)
        exact absurd hzero hne
    -- Neither the sum nor the difference wraps, as the step still fits behind the start.
    have hsum : (start + step).toInt = start.toInt + step.toInt :=
      toInt_add_of_lt (by omega) hfit
    have hdiff : (start + step - start % step).toInt
        = start.toInt + step.toInt - start.toInt % step.toInt := by
      rw [toInt_sub_of_lt (by rw [hsum, hmod]; omega) (by rw [hsum, hmod]; omega), hsum, hmod]
    rw [hdiff]
    constructor
    · omega
    · omega
  · constructor
    · omega
    · omega

/-- Rounding down gives the multiple of the step below. -/
lemma alignDown_eq (hstart : 0 ≤ start.toInt) (hstep : 0 < step.toInt) :
    (alignDown start step).toInt = step.toInt * (start.toInt / step.toInt) := by
  have hmod : (start % step).toInt = start.toInt % step.toInt := by
    rw [Int64.toInt_mod, Int.tmod_eq_emod_of_nonneg hstart]
  have hlow := Int.emod_nonneg start.toInt (by omega : step.toInt ≠ 0)
  have hquot : 0 ≤ step.toInt * (start.toInt / step.toInt) :=
    Int.mul_nonneg (by omega) (Int.ediv_nonneg hstart (by omega))
  have hsplit := Int.mul_ediv_add_emod start.toInt step.toInt
  have htop := start.toInt_lt
  rw [alignDown, toInt_sub_of_lt (by rw [hmod]; omega) (by rw [hmod]; omega), hmod]
  omega

/-- The body of a range lies in it, and its length is a whole number of steps. -/
theorem splitRange_bounds (hstart : 0 ≤ start.toInt) (hle : start.toInt ≤ stop.toInt)
    (hstep : 0 < step.toInt) (hfit : stop.toInt + step.toInt < 2 ^ 63) :
    ∃ count : Nat,
      start.toInt ≤ (splitRange start stop step).1.toInt ∧
      (splitRange start stop step).2.toInt
        = (splitRange start stop step).1.toInt + step.toInt * count ∧
      (splitRange start stop step).2.toInt ≤ stop.toInt := by
  unfold splitRange
  split
  · exact ⟨0, by simp, by simp, hle⟩
  obtain ⟨hlow, hhigh⟩ := alignUp_bounds hstart hstep (by omega)
  simp only
  split
  · exact ⟨0, hle, by simp, by simp⟩
  rename_i hlt
  rw [Int64.lt_iff_toInt_lt, not_lt] at hlt
  generalize alignUp start step = first at hlow hhigh hlt
  have hlen : (stop - first).toInt = stop.toInt - first.toInt :=
    toInt_sub_of_lt (by omega) (by have := stop.toInt_lt; omega)
  have hdown := @alignDown_eq (stop - first) step (by omega) hstep
  have hquot : 0 ≤ (stop - first).toInt / step.toInt :=
    Int.ediv_nonneg (by omega) (by omega)
  have hbody : step.toInt * ((stop - first).toInt / step.toInt) ≤ (stop - first).toInt :=
    Int.mul_ediv_self_le (by omega)
  have hlast : (first + alignDown (stop - first) step).toInt
      = first.toInt + (alignDown (stop - first) step).toInt := by
    have := Int.mul_nonneg (by omega : 0 ≤ step.toInt) hquot
    have := stop.toInt_lt
    exact toInt_add_of_lt (by omega) (by omega)
  refine ⟨((stop - first).toInt / step.toInt).toNat, hlow, ?_, ?_⟩
  · rw [hlast, hdown, Int.toNat_of_nonneg hquot]
  · show (first + alignDown (stop - first) step).toInt ≤ stop.toInt
    omega

end Split

/-! ### Addresses -/

/-- No number of misaligned slots is negative. -/
lemma misalignedCount_nonneg (address : UInt64) {count : Int64} (hcount : 0 ≤ count.toInt) :
    0 ≤ (misalignedCount address count (lanes * slotSize)).toInt := by
  have hboundary : (lanes * slotSize).toUInt64 = 32 := rfl
  unfold misalignedCount
  simp only [hboundary]
  split
  · exact Int.le_refl 0
  split
  · exact Int.le_refl 0
  split
  · exact hcount
  · have hlt : (address % 32).toNat < 32 := by
      rw [UInt64.toNat_mod]
      exact Nat.mod_lt _ (by decide)
    have hoffset : (address % 32).toInt64 = Int64.ofNat (address % 32).toNat := by
      rw [← UInt64.toInt64_ofNat', UInt64.ofNat_toNat]
    have hline : (lanes * slotSize).toInt = 32 := rfl
    have hword : (Int64.ofNat (address % 32).toNat).toInt = (address % 32).toNat :=
      Int64.toInt_ofNat_of_lt (by omega)
    have hrest : (lanes * slotSize - (address % 32).toInt64).toInt
        = (32 - (address % 32).toNat : Nat) := by
      rw [hoffset, toInt_sub_of_lt (by omega) (by omega)]
      omega
    have hquot : (((32 - (address % 32).toNat : Nat) : Int).tdiv slotSize.toInt)
        = ((32 - (address % 32).toNat) / 8 : Nat) := rfl
    rw [toInt_min, Int64.toInt_div, hrest, hquot, Int.bmod_eq_of_le (by omega) (by omega)]
    omega

end Layout

end Indicial
