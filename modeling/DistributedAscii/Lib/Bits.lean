import Mathlib.Data.Nat.Bitwise
import Mathlib.Tactic

/-!
# Lib — fields of a word

What C code does with shifts and masks, in terms of widths: a field of a
word, the extension of its low bits with zeros or with their sign, and the
test of one bit, the sign in particular. Words have any width.
-/

namespace DistributedAscii.Lib.Bits

variable {w : Nat} {x y : BitVec w} {i k s : Nat}

/-- The lowest `k` bits. -/
def mask (w k : Nat) : BitVec w :=
  BitVec.ofNat w (2 ^ k - 1)

theorem getLsbD_mask : (mask w k).getLsbD i = (decide (i < w) && decide (i < k)) := by
  rw [mask, BitVec.getLsbD_ofNat, Nat.testBit_two_pow_sub_one]

theorem toNat_and_mask (hk : k ≤ w) : (x &&& mask w k).toNat = x.toNat % 2 ^ k := by
  have hmask : (mask w k).toNat = 2 ^ k - 1 := by
    rw [mask, BitVec.toNat_ofNat, Nat.mod_eq_of_lt]
    have hle := Nat.pow_le_pow_right (show 0 < 2 by decide) hk
    have hpos := Nat.two_pow_pos k
    omega
  rw [BitVec.toNat_and, hmask, Nat.and_two_pow_sub_one_eq_mod]

/-- Masked bits are extended with zeros. -/
theorem and_mask (hk : k ≤ w) : x &&& mask w k = (x.setWidth k).setWidth w := by
  apply BitVec.eq_of_toNat_eq
  rw [toNat_and_mask hk, BitVec.toNat_setWidth, BitVec.toNat_setWidth]
  exact (Nat.mod_eq_of_lt ((Nat.mod_lt _ (Nat.two_pow_pos k)).trans_le
    (Nat.pow_le_pow_right (by decide) hk))).symm

/-- A field. -/
theorem toNat_shift_mask (hk : k ≤ w) :
    ((x >>> s) &&& mask w k).toNat = (x.extractLsb' s k).toNat := by
  rw [toNat_and_mask hk, BitVec.extractLsb'_toNat, BitVec.toNat_ushiftRight]

/-- The test of one bit. -/
theorem and_twoPow_ne_zero (hi : i < w) :
    x &&& BitVec.twoPow w i ≠ 0 ↔ x.getLsbD i = true := by
  have hpow : BitVec.twoPow w i ≠ 0 := by
    intro hzero
    have hbit := congrArg (BitVec.getLsbD · i) hzero
    simp [hi] at hbit
  rw [BitVec.and_twoPow]
  cases x.getLsbD i with
  | false => simp
  | true => simpa using hpow

/-- The test of the sign. -/
theorem and_signBit_ne_zero (hw : 0 < w) :
    x &&& BitVec.twoPow w (w - 1) ≠ 0 ↔ x.toInt < 0 := by
  rw [and_twoPow_ne_zero (by omega), ← BitVec.msb_eq_getLsbD_last, BitVec.msb_eq_toInt,
    decide_eq_true_iff]

/-- Do two words have different signs? -/
theorem xor_and_signBit_ne_zero (hw : 0 < w) :
    (x ^^^ y) &&& BitVec.twoPow w (w - 1) ≠ 0 ↔ ¬(x.toInt < 0 ↔ y.toInt < 0) := by
  rw [and_twoPow_ne_zero (by omega), BitVec.getLsbD_xor, ← BitVec.msb_eq_getLsbD_last,
    ← BitVec.msb_eq_getLsbD_last, BitVec.msb_eq_toInt, BitVec.msb_eq_toInt]
  by_cases hx : x.toInt < 0 <;> by_cases hy : y.toInt < 0 <;> simp [hx, hy]

/-- The extension with the sign, by hand. -/
theorem extend_eq_signExtend :
    (if x.getLsbD k = true then x ||| ~~~mask w (k + 1) else x &&& mask w (k + 1))
      = (x.setWidth (k + 1)).signExtend w := by
  have hmsb : (x.setWidth (k + 1)).msb = x.getLsbD k := by
    rw [BitVec.msb_eq_getLsbD_last, BitVec.getLsbD_setWidth]
    simp
  refine BitVec.eq_of_getLsbD_eq fun i hi => ?_
  rw [BitVec.getLsbD_signExtend, hmsb, BitVec.getLsbD_setWidth]
  by_cases hbit : x.getLsbD k = true
  · rw [if_pos hbit, BitVec.getLsbD_or, BitVec.getLsbD_not, getLsbD_mask]
    by_cases hlow : i < k + 1 <;> simp [hi, hlow, hbit]
  · rw [if_neg hbit, BitVec.getLsbD_and, getLsbD_mask]
    by_cases hlow : i < k + 1 <;> simp [hi, hlow, hbit]

/-- The low bits of a word that extends a shorter one. -/
theorem setWidth_signExtend (hk : k ≤ w) (b : BitVec k) : (b.signExtend w).setWidth k = b := by
  refine BitVec.eq_of_getLsbD_eq fun i hi => ?_
  rw [BitVec.getLsbD_setWidth, BitVec.getLsbD_signExtend]
  simp [hi, show i < w by omega]

end DistributedAscii.Lib.Bits
