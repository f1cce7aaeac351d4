import DistributedAscii.Lib.Bits
import DistributedAscii.NachOS.Mips.Fields
import DistributedAscii.NachOS.Mips.Mult

/-!
# NachOS — the arithmetic of the simulator

The tests and masks of `OneInstruction`, each as the number or the width
that it stands for.
-/

namespace DistributedAscii.NachOS.Mips

open Lib.Bits (mask)

variable {x y : Word}

theorem SIGN_BIT_eq : SIGN_BIT = BitVec.twoPow 32 (32 - 1) := by decide

theorem and_SIGN_BIT : x &&& SIGN_BIT ≠ 0 ↔ x.toInt < 0 := by
  rw [SIGN_BIT_eq]
  exact Lib.Bits.and_signBit_ne_zero (by decide)

theorem and_SIGN_BIT_eq_zero : x &&& SIGN_BIT = 0 ↔ 0 ≤ x.toInt := by
  rw [← not_iff_not, ← Ne, and_SIGN_BIT, not_le]

theorem xor_and_SIGN_BIT : (x ^^^ y) &&& SIGN_BIT ≠ 0 ↔ ¬(x.toInt < 0 ↔ y.toInt < 0) := by
  rw [SIGN_BIT_eq]
  exact Lib.Bits.xor_and_signBit_ne_zero (by decide)

theorem xor_and_SIGN_BIT_eq_zero : (x ^^^ y) &&& SIGN_BIT = 0 ↔ (x.toInt < 0 ↔ y.toInt < 0) := by
  rw [← not_iff_not, ← Ne, xor_and_SIGN_BIT]

/-- A number that a word can hold. -/
def InWord (n : Int) : Prop :=
  -2 ^ 31 ≤ n ∧ n < 2 ^ 31

instance (n : Int) : Decidable (InWord n) :=
  inferInstanceAs (Decidable (_ ∧ _))

theorem toInt_add_cases (x y : Word) :
    (x + y).toInt = x.toInt + y.toInt ∧ InWord (x.toInt + y.toInt) ∨
      (x + y).toInt = x.toInt + y.toInt - 2 ^ 32 ∧ 2 ^ 31 ≤ x.toInt + y.toInt ∨
      (x + y).toInt = x.toInt + y.toInt + 2 ^ 32 ∧ x.toInt + y.toInt < -2 ^ 31 := by
  have hx := x.toInt_lt
  have hx' := x.le_toInt
  have hy := y.toInt_lt
  have hy' := y.le_toInt
  rw [BitVec.toInt_add]
  simp only [InWord, Int.bmod] at *
  omega

theorem toInt_sub_cases (x y : Word) :
    (x - y).toInt = x.toInt - y.toInt ∧ InWord (x.toInt - y.toInt) ∨
      (x - y).toInt = x.toInt - y.toInt - 2 ^ 32 ∧ 2 ^ 31 ≤ x.toInt - y.toInt ∨
      (x - y).toInt = x.toInt - y.toInt + 2 ^ 32 ∧ x.toInt - y.toInt < -2 ^ 31 := by
  have hx := x.toInt_lt
  have hx' := x.le_toInt
  have hy := y.toInt_lt
  have hy' := y.le_toInt
  rw [BitVec.toInt_sub]
  simp only [InWord, Int.bmod] at *
  omega

/-- **The overflow of a sum**: two signs that agree, and a third one. -/
theorem add_overflow : ((x ^^^ y) &&& SIGN_BIT = 0 ∧ (x ^^^ (x + y)) &&& SIGN_BIT ≠ 0) ↔
    ¬InWord (x.toInt + y.toInt) := by
  have hx := x.toInt_lt
  have hx' := x.le_toInt
  have hy := y.toInt_lt
  have hy' := y.le_toInt
  rw [xor_and_SIGN_BIT_eq_zero, xor_and_SIGN_BIT]
  have hcases := toInt_add_cases x y
  simp only [InWord] at *
  omega

theorem addi_overflow : ((x ^^^ y) &&& SIGN_BIT = 0 ∧ (y ^^^ (x + y)) &&& SIGN_BIT ≠ 0) ↔
    ¬InWord (x.toInt + y.toInt) := by
  rw [BitVec.xor_comm x y, BitVec.add_comm x y, add_overflow, Int.add_comm]

theorem sub_overflow : ((x ^^^ y) &&& SIGN_BIT ≠ 0 ∧ (x ^^^ (x - y)) &&& SIGN_BIT ≠ 0) ↔
    ¬InWord (x.toInt - y.toInt) := by
  have hx := x.toInt_lt
  have hx' := x.le_toInt
  have hy := y.toInt_lt
  have hy' := y.le_toInt
  rw [xor_and_SIGN_BIT, xor_and_SIGN_BIT]
  have hcases := toInt_sub_cases x y
  simp only [InWord] at *
  omega

theorem ofInt_add (x y : Word) : BitVec.ofInt 32 (x.toInt + y.toInt) = x + y := by
  rw [BitVec.ofInt_add, BitVec.ofInt_toInt, BitVec.ofInt_toInt]

theorem ofInt_sub (x y : Word) : BitVec.ofInt 32 (x.toInt - y.toInt) = x - y := by
  rw [Int.sub_eq_add_neg, BitVec.ofInt_add, BitVec.ofInt_neg, BitVec.ofInt_toInt,
    BitVec.ofInt_toInt, BitVec.sub_eq_add_neg]

/-- The quotient that is no `int`. -/
theorem div_overflow : x = SIGN_BIT ∧ y = -1 ↔ x.toInt = -2 ^ 31 ∧ y.toInt = -1 := by
  have hmin : SIGN_BIT.toInt = -2 ^ 31 := by decide
  have hone : (-1 : Word).toInt = -1 := by decide
  rw [← BitVec.toInt_inj (x := x), ← BitVec.toInt_inj (x := y), hmin, hone]

/-! ## Immediates and shifts -/

/-- The mask undoes the extension with the sign. -/
theorem signExtend_and_mask (imm : BitVec 16) :
    imm.signExtend 32 &&& (0xffff : Word) = imm.setWidth 32 := by
  have hmask : imm.signExtend 32 &&& mask 32 16 = ((imm.signExtend 32).setWidth 16).setWidth 32 :=
    Lib.Bits.and_mask (by decide)
  rw [Lib.Bits.setWidth_signExtend (by decide)] at hmask
  exact hmask

theorem lui_eq (imm : BitVec 16) :
    imm.signExtend 32 <<< 16 = (imm ++ (0 : BitVec 16) : BitVec 32) := by
  refine BitVec.eq_of_getLsbD_eq fun i hi => ?_
  have happend : (imm ++ (0 : BitVec 16) : BitVec 32).getLsbD i
      = if i < 16 then (0 : BitVec 16).getLsbD i else imm.getLsbD (i - 16) :=
    BitVec.getLsbD_append
  rw [happend, BitVec.getLsbD_shiftLeft, BitVec.getLsbD_signExtend]
  by_cases hlow : i < 16
  · simp [hlow]
  · simp [hlow, hi, show i - 16 < 16 by omega, show i - 16 < 32 by omega]

theorem shift_amount (x : Word) : (x &&& 0x1f).toNat = x.toNat % 32 :=
  Lib.Bits.toNat_and_mask (k := 5) (by decide)

/-- A logical shift, where the sign does not show. -/
theorem sshiftRight_of_nonneg (h : 0 ≤ x.toInt) (n : Nat) : x.sshiftRight n = x >>> n := by
  refine BitVec.sshiftRight_eq_of_msb_false ?_
  rw [BitVec.msb_eq_toInt]
  simpa using h

/-- The target of a jump, in the region of the delay slot. -/
theorem region_eq {npc : Word} (target : BitVec 26)
    (hregion : (npc + 4).extractLsb' 28 4 = npc.extractLsb' 28 4) :
    (npc + 4) &&& (0xf0000000 : Word) ||| IndexToAddr (target.setWidth 32)
      = (npc.extractLsb' 28 4 ++ target ++ (0 : BitVec 2) : BitVec 32) := by
  rw [← hregion, IndexToAddr]
  generalize npc + 4 = link
  refine BitVec.eq_of_getLsbD_eq fun i hi => ?_
  have happend : (link.extractLsb' 28 4 ++ target ++ (0 : BitVec 2) : BitVec 32).getLsbD i
      = if i < 2 then (0 : BitVec 2).getLsbD i
        else if i - 2 < 26 then target.getLsbD (i - 2)
        else (link.extractLsb' 28 4).getLsbD (i - 2 - 26) := by
    rw [BitVec.getLsbD_append, BitVec.getLsbD_append]
  rw [happend]
  interval_cases i <;> simp

/-! ## Loads -/

/-- A `char` is extended by the host; the mask and the sign are taken from
there. -/
theorem loadByte_signed (b : Byte) :
    (if b.signExtend 32 &&& 0x80 ≠ 0 then b.signExtend 32 ||| 0xffffff00
      else b.signExtend 32 &&& 0xff) = b.signExtend 32 := by
  have hsign : b.signExtend 32 &&& 0x80 ≠ 0 ↔ (b.signExtend 32).getLsbD 7 = true :=
    Lib.Bits.and_twoPow_ne_zero (i := 7) (by decide)
  have hextend := Lib.Bits.extend_eq_signExtend (x := b.signExtend 32) (k := 7)
  rw [Lib.Bits.setWidth_signExtend (by decide)] at hextend
  simp only [hsign]
  exact hextend

theorem loadByte_unsigned (b : Byte) : b.signExtend 32 &&& (0xff : Word) = b.setWidth 32 := by
  have hmask : b.signExtend 32 &&& mask 32 8 = ((b.signExtend 32).setWidth 8).setWidth 32 :=
    Lib.Bits.and_mask (by decide)
  rw [Lib.Bits.setWidth_signExtend (by decide)] at hmask
  exact hmask

theorem setWidth_setWidth_half (half : BitVec 16) : (half.setWidth 32).setWidth 16 = half := by
  refine BitVec.eq_of_getLsbD_eq fun i hi => ?_
  rw [BitVec.getLsbD_setWidth, BitVec.getLsbD_setWidth]
  simp [hi, show i < 32 by omega]

theorem loadHalf_signed (half : BitVec 16) :
    (if half.setWidth 32 &&& 0x8000 ≠ 0 then half.setWidth 32 ||| 0xffff0000
      else half.setWidth 32 &&& 0xffff) = half.signExtend 32 := by
  have hsign : half.setWidth 32 &&& 0x8000 ≠ 0 ↔ (half.setWidth 32).getLsbD 15 = true :=
    Lib.Bits.and_twoPow_ne_zero (i := 15) (by decide)
  have hextend := Lib.Bits.extend_eq_signExtend (x := half.setWidth 32) (k := 15)
  rw [setWidth_setWidth_half] at hextend
  simp only [hsign]
  exact hextend

theorem loadHalf_unsigned (half : BitVec 16) :
    half.setWidth 32 &&& (0xffff : Word) = half.setWidth 32 := by
  have hmask : half.setWidth 32 &&& mask 32 16 = ((half.setWidth 32).setWidth 16).setWidth 32 :=
    Lib.Bits.and_mask (by decide)
  rw [setWidth_setWidth_half] at hmask
  exact hmask

/-! ## Products -/

theorem Mult_words (a b : Word) (signedArith : Bool) {product : BitVec 64}
    (h : (if signedArith then BitVec.ofInt 64 (a.toInt * b.toInt)
      else BitVec.ofNat 64 (a.toNat * b.toNat)) = product) :
    Mult a b signedArith = (product.extractLsb' 32 32, product.extractLsb' 0 32) := by
  have hvalue := Mult_value a b signedArith
  rw [h] at hvalue
  obtain ⟨⟨hi, lo⟩, hpair⟩ : ∃ pair, Mult a b signedArith = pair := ⟨_, rfl⟩
  rw [hpair] at hvalue ⊢
  dsimp only at hvalue
  have hlo := lo.isLt
  have hhi := hi.isLt
  rw [← hvalue, Prod.mk.injEq]
  constructor
  · apply BitVec.eq_of_toNat_eq
    rw [BitVec.extractLsb'_toNat, toNat_pair, Nat.shiftRight_eq_div_pow]
    omega
  · apply BitVec.eq_of_toNat_eq
    rw [BitVec.extractLsb'_toNat, toNat_pair, Nat.shiftRight_eq_div_pow]
    omega

end DistributedAscii.NachOS.Mips
