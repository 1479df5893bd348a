import Indicial.Program.Checksum
import Mathlib.Data.Nat.Bitwise
import Mathlib.Logic.Function.Basic

/-!
# A changed byte changes the checksum

The register of a checksum never forgets: moving a bit out of it is injective, because the highest bit
of the polynomial is set and so tells which bit was moved out (`bitStep_injective`). Two registers that
differ after some byte therefore differ after all the bytes that follow, and one byte cannot be
replaced without a change of the checksum (`crc32_set_ne`).
-/

namespace Indicial.Checksum

/-- A register is its lowest bit and the bits above it. -/
lemma eq_of_shift_of_bit {r s : UInt32} (hshift : r >>> 1 = s >>> 1)
    (hbit : r &&& 1 = 1 ↔ s &&& 1 = 1) : r = s := by
  have hhalf : r.toNat / 2 = s.toNat / 2 := by
    simpa [Nat.shiftRight_eq_div_pow] using congrArg UInt32.toNat hshift
  have hodd : r.toNat % 2 = 1 ↔ s.toNat % 2 = 1 := by
    simpa [← UInt32.toNat_inj, Nat.and_one_is_mod] using hbit
  rw [← UInt32.toNat_inj]
  omega

/-- The bits above the lowest never make up the polynomial. -/
lemma shift_xor_shift_ne (r s : UInt32) : r >>> 1 ^^^ s >>> 1 ≠ polynomial := by
  have hlt : ∀ t : UInt32, (t >>> 1).toNat < 2 ^ 31 := by
    intro t
    have ht := t.toNat_lt
    rw [UInt32.toNat_shiftRight]
    simp only [UInt32.reduceToNat, Nat.reduceMod, Nat.shiftRight_eq_div_pow, pow_one]
    omega
  intro h
  have hxor := Nat.xor_lt_two_pow (hlt r) (hlt s)
  rw [← UInt32.toNat_xor, h] at hxor
  exact absurd hxor (by decide)

/-- Moving a bit out of the register loses nothing. -/
theorem bitStep_injective : Function.Injective bitStep := by
  intro r s h
  unfold bitStep at h
  -- The cases are the two bits moved out. Where they differ, the polynomial went into one register only.
  split at h
  · rename_i hr
    split at h
    · rename_i hs
      exact eq_of_shift_of_bit (UInt32.xor_left_inj _ |>.1 h) (by simp [hr, hs])
    · refine absurd ?_ (shift_xor_shift_ne r s)
      rw [← h, ← UInt32.xor_assoc, UInt32.xor_self, UInt32.zero_xor]
  · rename_i hr
    split at h
    · refine absurd ?_ (shift_xor_shift_ne r s)
      rw [h, UInt32.xor_comm, ← UInt32.xor_assoc, UInt32.xor_self, UInt32.zero_xor]
    · rename_i hs
      exact eq_of_shift_of_bit h (by simp [hr, hs])

/-- The bits of a byte are taken into the register at once and then moved out one by one. -/
lemma byteStep_eq_iff {r s : UInt32} {b c : UInt8} :
    byteStep r b = byteStep s c ↔ r ^^^ b.toUInt32 = s ^^^ c.toUInt32 := by
  simp only [byteStep, bitStep_injective.eq_iff]

/-- What is in the register before some bytes is known from what is in it after them. -/
lemma foldl_byteStep_injective (bs : Bytes) : Function.Injective fun r => bs.foldl byteStep r := by
  induction bs with
  | nil => exact Function.injective_id
  | cons b bs ih =>
    intro r s h
    have hstep : byteStep r b = byteStep s b := ih h
    exact (UInt32.xor_left_inj _).1 (byteStep_eq_iff.1 hstep)

/-- One byte cannot be replaced without a change of the checksum. -/
theorem crc32_set_ne {bs : Bytes} {i : Nat} {b x : UInt8} (hb : bs[i]? = some b) (hx : x ≠ b) :
    crc32 (bs.set i x) ≠ crc32 bs := by
  obtain ⟨hi, rfl⟩ := List.getElem?_eq_some_iff.1 hb
  intro h
  have hregister : (bs.set i x).foldl byteStep 0xFFFFFFFF = bs.foldl byteStep 0xFFFFFFFF :=
    (UInt32.xor_left_inj _).1 h
  have hset : bs.set i x = bs.take i ++ x :: bs.drop (i + 1) := by
    rw [List.set_eq_take_append_cons_drop, if_pos hi]
  -- The bytes before `i` leave one register for both, those after it keep two registers apart.
  have hsplit : bs.foldl byteStep 0xFFFFFFFF
      = (bs.take i ++ bs[i] :: bs.drop (i + 1)).foldl byteStep 0xFFFFFFFF := by simp
  rw [hset, hsplit, List.foldl_append, List.foldl_append, List.foldl_cons, List.foldl_cons]
    at hregister
  have hbyte := byteStep_eq_iff.1 (foldl_byteStep_injective _ hregister)
  have hword := (UInt32.xor_right_inj _).1 hbyte
  exact hx (UInt8.toUInt32_inj.1 hword)

/-- The checksum of the digits from one to nine, the check value of this code. -/
example : crc32 (Bytes.ofString "123456789") = 0xCBF43926 := by decide +kernel

end Indicial.Checksum
