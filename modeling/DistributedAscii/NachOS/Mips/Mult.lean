import Mathlib.Data.BitVec
import DistributedAscii.NachOS.Mips.OneInstruction

/-!
# NachOS — the product of two words

`Mult` works on pairs of words, adds with an explicit carry and shifts the
sign of `a` along. A pair is read as one number of 64 bits; the loop then
adds up the shifted multiplicand for the bits of `a` (`multLoop_value`), and
the result is the exact product, signed or unsigned (`Mult_value`).
-/

namespace DistributedAscii.NachOS.Mips

theorem and_one_ne_zero {x : Word} : x &&& 1 ≠ 0 ↔ x.toNat % 2 = 1 := by
  have hand : (x &&& 1).toNat = x.toNat % 2 := by
    rw [BitVec.toNat_and, show (1 : Word).toNat = 1 from rfl, Nat.and_one_is_mod]
  rw [Ne, ← BitVec.toNat_inj, hand]
  simp

theorem and_signBit_ne_zero {x : Word} : x &&& 0x80000000 ≠ 0 ↔ 2 ^ 31 ≤ x.toNat := by
  have hbit : (0x80000000 : Word) = BitVec.twoPow 32 31 := by decide
  rw [hbit, BitVec.and_twoPow, ← BitVec.msb_eq_getLsbD_last, BitVec.msb_eq_decide]
  simp

theorem shiftLeft_or_one (x : Word) : x <<< 1 ||| (1 : Word) = x <<< 1 + (1 : Word) := by
  refine (BitVec.add_eq_or_of_and_eq_zero _ _ ?_).symm
  apply BitVec.eq_of_toNat_eq
  rw [BitVec.toNat_and, show (1 : Word).toNat = 1 from rfl, Nat.and_one_is_mod,
    BitVec.toNat_shiftLeft, Nat.shiftLeft_eq]
  simp only [BitVec.toNat_zero]
  omega

theorem toNat_pair (hi lo : Word) :
    (hi ++ lo : BitVec 64).toNat = hi.toNat * 2 ^ 32 + lo.toNat := by
  have happend : (hi ++ lo : BitVec (32 + 32)).toNat = hi.toNat <<< 32 ||| lo.toNat :=
    BitVec.toNat_append ..
  rw [happend, ← Nat.shiftLeft_add_eq_or_of_lt lo.isLt, Nat.shiftLeft_eq]

/-- An addition with a carry between the words. -/
theorem pair_add (hi lo bHi bLo : Word) :
    (((if lo + bLo < bLo then hi + 1 else hi) + bHi) ++ (lo + bLo) : BitVec 64)
      = (hi ++ lo) + (bHi ++ bLo) := by
  apply BitVec.eq_of_toNat_eq
  have hcarry : lo + bLo < bLo ↔ 2 ^ 32 ≤ lo.toNat + bLo.toNat := by
    rw [BitVec.lt_def, BitVec.toNat_add]
    omega
  have hone : (1 : Word).toNat = 1 := rfl
  rw [toNat_pair, BitVec.toNat_add (x := (hi ++ lo : BitVec 64)), toNat_pair, toNat_pair]
  split
  case isTrue h =>
    rw [hcarry] at h
    simp only [BitVec.toNat_add, hone]
    omega
  case isFalse h =>
    rw [hcarry] at h
    simp only [BitVec.toNat_add]
    omega

/-- A shift that carries the highest bit over. -/
theorem pair_double (bHi bLo : Word) :
    ((if bLo &&& 0x80000000 ≠ 0 then bHi <<< 1 ||| (1 : Word) else bHi <<< 1)
        ++ (bLo <<< 1) : BitVec 64)
      = (bHi ++ bLo) + (bHi ++ bLo) := by
  apply BitVec.eq_of_toNat_eq
  have hone : (1 : Word).toNat = 1 := rfl
  rw [toNat_pair, BitVec.toNat_add (x := (bHi ++ bLo : BitVec 64)), toNat_pair]
  split
  case isTrue h =>
    rw [and_signBit_ne_zero] at h
    simp only [shiftLeft_or_one, BitVec.toNat_add, BitVec.toNat_shiftLeft, Nat.shiftLeft_eq, hone]
    omega
  case isFalse h =>
    rw [and_signBit_ne_zero] at h
    simp only [BitVec.toNat_shiftLeft, Nat.shiftLeft_eq]
    omega

/-- The two's complement over both words. -/
theorem pair_neg (hi lo : Word) :
    ((if ~~~lo + 1 = 0 then ~~~hi + 1 else ~~~hi) ++ (~~~lo + 1) : BitVec 64) = -(hi ++ lo) := by
  apply BitVec.eq_of_toNat_eq
  have hone : (1 : Word).toNat = 1 := rfl
  have hzero : ~~~lo + 1 = 0 ↔ lo.toNat = 0 := by
    rw [← BitVec.toNat_inj, BitVec.toNat_add, BitVec.toNat_not, hone]
    simp only [BitVec.toNat_zero, BitVec.ofNat_eq_ofNat]
    omega
  rw [toNat_pair, BitVec.toNat_neg, toNat_pair]
  split
  case isTrue h =>
    rw [hzero] at h
    simp only [BitVec.toNat_add, BitVec.toNat_not, hone]
    omega
  case isFalse h =>
    rw [hzero] at h
    simp only [BitVec.toNat_add, BitVec.toNat_not, hone]
    omega

/-! ## The loop -/

namespace Product

/-- What has been added up. -/
def value (p : Product) : BitVec 64 :=
  p.hi ++ p.lo

/-- The shifted multiplicand. -/
def addend (p : Product) : BitVec 64 :=
  p.bHi ++ p.bLo

end Product

/-- The lowest bit, and the rest as long as the sign does not show. -/
theorem toNat_mod_succ (a : Word) {n : Nat} (hn : n ≤ 31) :
    a.toNat % 2 ^ (n + 1) = a.toNat % 2 + 2 * ((a.sshiftRight 1).toNat % 2 ^ n) := by
  have hshift : (a.sshiftRight 1).toNat % 2 ^ n = a.toNat / 2 % 2 ^ n := by
    have hlow : (a.sshiftRight 1).toNat % 2 ^ 31 = a.toNat / 2 % 2 ^ 31 := by
      have hint : (a.sshiftRight 1).toInt = a.toInt / 2 := by
        rw [BitVec.toInt_sshiftRight, Int.shiftRight_eq_div_pow]
        rfl
      rw [BitVec.toInt_eq_toNat_cond, BitVec.toInt_eq_toNat_cond] at hint
      split at hint <;> split at hint <;> omega
    rw [← Nat.mod_mod_of_dvd _ (Nat.pow_dvd_pow 2 hn), hlow,
      Nat.mod_mod_of_dvd _ (Nat.pow_dvd_pow 2 hn)]
  rw [hshift, Nat.pow_succ, Nat.mul_comm (2 ^ n), Nat.mod_mul]

theorem toNat_eq_one {a : Word} (hodd : a.toNat % 2 = 1) (hrest : a &&& 0xfffffffe = 0) :
    a.toNat = 1 := by
  have hsplit : a = (a &&& 0xfffffffe) + (a &&& 1) := by
    rw [BitVec.add_eq_or_of_and_eq_zero, ← BitVec.and_or_distrib_left]
    · rw [show (0xfffffffe ||| 1 : Word) = BitVec.allOnes 32 by decide, BitVec.and_allOnes]
    · rw [BitVec.and_assoc, BitVec.and_comm a 1, ← BitVec.and_assoc (y := 1),
        show (0xfffffffe &&& 1 : Word) = 0 by decide]
      simp
  have hone : (a &&& 1).toNat = a.toNat % 2 := by
    rw [BitVec.toNat_and, show (1 : Word).toNat = 1 from rfl, Nat.and_one_is_mod]
  rw [hsplit, hrest, zero_add, hone, hodd]

/-- One round, as a number. -/
theorem round_eq (v b : BitVec 64) (low rest : Nat) :
    v + BitVec.ofNat 64 low * b + BitVec.ofNat 64 rest * (b + b)
      = v + BitVec.ofNat 64 (low + 2 * rest) * b := by
  rw [BitVec.ofNat_add, BitVec.ofNat_mul, show BitVec.ofNat 64 2 = 1 + 1 by decide]
  ring

/-- **The loop** adds the multiplicand for each of the low bits of `a`. -/
theorem multLoop_value (p : Product) {n : Nat} (hn : n ≤ 32) :
    (multLoop p n).value = p.value + BitVec.ofNat 64 (p.a.toNat % 2 ^ n) * p.addend := by
  induction n generalizing p with
  | zero => simp [multLoop, Nat.mod_one]
  | succ n ih =>
      obtain ⟨a, bHi, bLo, hi, lo⟩ := p
      have hdouble := pair_double bHi bLo
      have hadd := pair_add hi lo bHi bLo
      have hrest := ih
      rw [multLoop, toNat_mod_succ a (n := n) (by omega), ← round_eq]
      simp only [Product.value, Product.addend] at hdouble hadd hrest ⊢
      by_cases hodd : a &&& 1 ≠ 0
      · have hlow : BitVec.ofNat 64 (a.toNat % 2) = 1 := by
          rw [and_one_ne_zero.mp hodd]
          rfl
        simp only [if_pos hodd, hlow, one_mul]
        by_cases hlast : a &&& 0xfffffffe = 0
        · -- no bits are left
          have hshift : (a.sshiftRight 1).toNat % 2 ^ n = 0 := by
            have hle := Nat.mod_le a.toNat (2 ^ (n + 1))
            have hone := toNat_eq_one (and_one_ne_zero.mp hodd) hlast
            rw [toNat_mod_succ a (n := n) (by omega), hone] at hle
            simpa using hle
          rw [if_pos ⟨hodd, hlast⟩, hadd, hshift]
          simp
        · rw [if_neg (fun hboth => hlast hboth.2), hrest _ (by omega)]
          simp only [hdouble, hadd]
      · have hlow : BitVec.ofNat 64 (a.toNat % 2) = 0 := by
          have hzero : a.toNat % 2 = 0 := by
            have hne : a.toNat % 2 ≠ 1 := fun h => hodd (and_one_ne_zero.mpr h)
            omega
          rw [hzero]
          rfl
        simp only [if_neg hodd, hlow, zero_mul, add_zero]
        rw [if_neg (fun hboth => hodd hboth.1), hrest _ (by omega)]
        simp only [hdouble]

theorem multLoop_start (a b : Word) :
    (multLoop { a, bHi := 0, bLo := b, hi := 0, lo := 0 } 32).value
      = BitVec.ofNat 64 (a.toNat * b.toNat) := by
  have hb : ((0 : Word) ++ b : BitVec 64) = BitVec.ofNat 64 b.toNat := by
    apply BitVec.eq_of_toNat_eq
    rw [toNat_pair, BitVec.toNat_ofNat]
    simp
    omega
  rw [multLoop_value _ (Nat.le_refl 32), Nat.mod_eq_of_lt a.isLt, Product.addend, hb,
    ← BitVec.ofNat_mul]
  simp [Product.value]

/-! ## The product -/

/-- The absolute value fits, also that of the smallest `int`. -/
theorem toNat_abs (a : Word) :
    ((if a.toInt < 0 then -a else a).toNat : Int) = |a.toInt| := by
  have hcond := BitVec.toInt_eq_toNat_cond a
  have hlt := a.isLt
  split
  case isTrue h =>
    rw [abs_of_neg h, BitVec.toNat_neg]
    split at hcond <;> omega
  case isFalse h =>
    rw [abs_of_nonneg (by omega)]
    split at hcond <;> omega

/-- The words of the exact product. -/
theorem Mult_value (a b : Word) (signedArith : Bool) :
    ((Mult a b signedArith).1 ++ (Mult a b signedArith).2 : BitVec 64) =
      if signedArith then BitVec.ofInt 64 (a.toInt * b.toInt)
      else BitVec.ofNat 64 (a.toNat * b.toNat) := by
  rw [Mult]
  by_cases hzero : a = 0 ∨ b = 0
  · rw [if_pos hzero]
    rcases hzero with rfl | rfl <;> simp
  · rw [if_neg hzero]
    cases signedArith with
    | false => exact multLoop_start a b
    | true =>
        obtain ⟨a', ha'⟩ : ∃ a', a' = if a.toInt < 0 then -a else a := ⟨_, rfl⟩
        obtain ⟨b', hb'⟩ : ∃ b', b' = if b.toInt < 0 then -b else b := ⟨_, rfl⟩
        have hloop := multLoop_start a' b'
        have habs : ((a'.toNat * b'.toNat : Nat) : Int) = |a.toInt * b.toInt| := by
          rw [Nat.cast_mul, ha', hb', toNat_abs, toNat_abs, abs_mul]
        rw [← BitVec.ofInt_natCast, habs] at hloop
        simp only [Bool.true_and, decide_eq_true_eq, ← ha', ← hb', if_true]
        by_cases hneg : (xor (decide (a.toInt < 0)) (decide (b.toInt < 0))) = true
        · have hsign : a.toInt * b.toInt ≤ 0 := by
            by_cases ha : a.toInt < 0 <;> by_cases hb : b.toInt < 0 <;> simp [ha, hb] at hneg
            · exact mul_nonpos_of_nonpos_of_nonneg (by omega) (by omega)
            · exact mul_nonpos_of_nonneg_of_nonpos (by omega) (by omega)
          rw [if_pos hneg]
          rw [abs_of_nonpos hsign, BitVec.ofInt_neg] at hloop
          rw [pair_neg]
          exact (congrArg Neg.neg hloop).trans (neg_neg _)
        · have hsign : 0 ≤ a.toInt * b.toInt := by
            by_cases ha : a.toInt < 0 <;> by_cases hb : b.toInt < 0 <;> simp [ha, hb] at hneg
            · exact mul_nonneg_of_nonpos_of_nonpos (by omega) (by omega)
            · exact mul_nonneg (by omega) (by omega)
          rw [if_neg hneg]
          rw [abs_of_nonneg hsign] at hloop
          exact hloop

theorem product_bound (a b : Word) : -2 ^ 62 ≤ a.toInt * b.toInt ∧ a.toInt * b.toInt ≤ 2 ^ 62 := by
  have ha : |a.toInt| ≤ 2 ^ 31 := abs_le.mpr ⟨a.le_toInt, a.toInt_lt.le⟩
  have hb : |b.toInt| ≤ 2 ^ 31 := abs_le.mpr ⟨b.le_toInt, b.toInt_lt.le⟩
  have hproduct : |a.toInt * b.toInt| ≤ 2 ^ 31 * 2 ^ 31 := by
    rw [abs_mul]
    exact mul_le_mul ha hb (abs_nonneg _) (by decide)
  exact abs_le.mp hproduct

/-- **`Mult` is exact**, with and without signs: no carry between the words
is lost, and no round of the loop is left out too early. -/
theorem Mult_exact (a b : Word) :
    (Mult a b true).1.toInt * 2 ^ 32 + (Mult a b true).2.toNat = a.toInt * b.toInt ∧
      (Mult a b false).1.toNat * 2 ^ 32 + (Mult a b false).2.toNat = a.toNat * b.toNat := by
  constructor
  · have hvalue := congrArg BitVec.toInt (Mult_value a b true)
    have happend : ((Mult a b true).1 ++ (Mult a b true).2 : BitVec 64).toInt
        = 2 ^ 32 * (Mult a b true).1.toInt + (Mult a b true).2.toNat := BitVec.toInt_append
    obtain ⟨hlow, hhigh⟩ := product_bound a b
    rw [happend, if_pos rfl, BitVec.toInt_ofInt, Int.bmod_eq_of_le (by omega) (by omega)] at hvalue
    rw [← hvalue, mul_comm]
  · have hvalue := congrArg BitVec.toNat (Mult_value a b false)
    have hlt : a.toNat * b.toNat < 2 ^ (32 + 32) := by
      rw [Nat.pow_add]
      exact Nat.mul_lt_mul'' a.isLt b.isLt
    rw [toNat_pair, if_neg (by decide), BitVec.toNat_ofNat, Nat.mod_eq_of_lt hlt] at hvalue
    exact hvalue

end DistributedAscii.NachOS.Mips
