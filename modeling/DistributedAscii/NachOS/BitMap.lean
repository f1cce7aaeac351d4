import DistributedAscii.Lib.BitSet

/-!
# NachOS — BitMap

`userprog/bitmap.cc`: the map of the physical pages and of the open files.
Every operation begins with `ASSERT(which >= 0 && which < numBits)`; the
result is `none` where it fails.
-/

namespace DistributedAscii.NachOS

open Lib

/-- `divRoundUp` of `utility.h`; both operators truncate. -/
def divRoundUp (n s : Int) : Int :=
  n.tdiv s + if 0 < n.tmod s then 1 else 0

theorem divRoundUp_natCast (n s : Nat) :
    divRoundUp n s = ((n / s + if 0 < n % s then 1 else 0 : Nat) : Int) := by
  have htdiv : (n : Int).tdiv s = (n / s : Nat) := (Int.ofNat_tdiv n s).symm
  have htmod : (n : Int).tmod s = (n % s : Nat) := (Int.ofNat_tmod n s).symm
  rw [divRoundUp, htdiv, htmod]
  split <;> split <;> omega

theorem div_lt_divRoundUp {i n s : Nat} (hs : 0 < s) (hi : i < n) :
    i / s < (divRoundUp n s).toNat := by
  rw [divRoundUp_natCast, Int.toNat_natCast, Nat.div_lt_iff_lt_mul hs, Nat.add_mul]
  have hdiv := Nat.div_add_mod' n s
  have hmod := Nat.mod_lt n hs
  split <;> omega

def BitsInWord : Nat := 32

/-- The bits, in `numWords` words. -/
structure BitMap where
  numBits : Nat
  map : List (BitVec BitsInWord)
  numWords : map.length = (divRoundUp numBits BitsInWord).toNat

namespace BitMap

/-- The constructor clears every bit. -/
def new (nitems : Nat) : BitMap where
  numBits := nitems
  map := List.replicate (divRoundUp nitems BitsInWord).toNat 0
  numWords := List.length_replicate

/-- What the assertions ask of `which`. -/
def InRange (b : BitMap) (which : Int) : Prop :=
  0 ≤ which ∧ which < b.numBits

instance (b : BitMap) (which : Int) : Decidable (b.InRange which) :=
  inferInstanceAs (Decidable (_ ∧ _))

/-- The bit of a number in range. -/
def bit (b : BitMap) (i : Nat) : Bool :=
  BitSet.test b.map i

def markBit (b : BitMap) (i : Nat) : BitMap where
  numBits := b.numBits
  map := BitSet.mark b.map i
  numWords := by rw [BitSet.length_mark, b.numWords]

def clearBit (b : BitMap) (i : Nat) : BitMap where
  numBits := b.numBits
  map := BitSet.clear b.map i
  numWords := by rw [BitSet.length_clear, b.numWords]

def Mark (b : BitMap) (which : Int) : Option BitMap :=
  if b.InRange which then some (b.markBit which.toNat) else none

def Clear (b : BitMap) (which : Int) : Option BitMap :=
  if b.InRange which then some (b.clearBit which.toNat) else none

def Test (b : BitMap) (which : Int) : Option Bool :=
  if b.InRange which then some (b.bit which.toNat) else none

/-- The number of a clear bit, which is set; -1 if there is none. -/
def Find (b : BitMap) : Int × BitMap :=
  match BitSet.firstClear b.map b.numBits with
  | some i => (i, b.markBit i)
  | none => (-1, b)

/-- `NumClear`: the loop over all bits. -/
def NumClear (b : BitMap) : Nat :=
  (List.range b.numBits).countP fun i => !b.bit i

@[simp] theorem numBits_markBit (b : BitMap) (i : Nat) : (b.markBit i).numBits = b.numBits := rfl

theorem word_lt (b : BitMap) {i : Nat} (hi : i < b.numBits) :
    i / BitsInWord < b.map.length := by
  rw [b.numWords]
  exact div_lt_divRoundUp (by decide) hi

theorem bit_markBit {b : BitMap} {i : Nat} (hi : i < b.numBits) (j : Nat) :
    (b.markBit i).bit j = (b.bit j || decide (j = i)) :=
  have : NeZero BitsInWord := ⟨by decide⟩
  BitSet.test_mark (b.word_lt hi) j

theorem bit_clearBit {b : BitMap} {i : Nat} (hi : i < b.numBits) (j : Nat) :
    (b.clearBit i).bit j = (b.bit j && !decide (j = i)) :=
  have : NeZero BitsInWord := ⟨by decide⟩
  BitSet.test_clear (b.word_lt hi) j

theorem bit_new (n i : Nat) : (new n).bit i = false := by
  simp [bit, BitSet.test, new, List.getD_eq_getElem?_getD, List.getElem?_replicate]
  split <;> simp

theorem InRange.toNat_lt {b : BitMap} {which : Int} (h : b.InRange which) :
    which.toNat < b.numBits := by
  obtain ⟨h0, hn⟩ := h
  omega

/-- What `Find` can do. -/
theorem Find_cases (b : BitMap) :
    (∃ i, i < b.numBits ∧ b.bit i = false ∧ (∀ j < i, b.bit j = true) ∧
        b.Find = ((i : Int), b.markBit i)) ∨
      (b.Find = (-1, b) ∧ ∀ i < b.numBits, b.bit i = true) := by
  unfold Find
  cases h : BitSet.firstClear b.map b.numBits with
  | some i =>
      obtain ⟨hi, hclear, hfirst⟩ := BitSet.firstClear_some h
      exact .inl ⟨i, hi, hclear, hfirst, rfl⟩
  | none => exact .inr ⟨rfl, BitSet.firstClear_eq_none.mp h⟩

@[simp] theorem numBits_Find (b : BitMap) : b.Find.2.numBits = b.numBits := by
  obtain ⟨i, -, -, -, h⟩ | ⟨h, -⟩ := b.Find_cases <;> simp [h]

/-! ## The clear bits -/

/-- The clear bits, in the order in which `Find` hands them out. -/
def clearBits (b : BitMap) : List Nat :=
  (List.range b.numBits).filter fun i => !b.bit i

theorem length_clearBits (b : BitMap) : b.clearBits.length = b.NumClear :=
  List.countP_eq_length_filter.symm

theorem nodup_clearBits (b : BitMap) : b.clearBits.Nodup :=
  List.nodup_range.filter _

theorem mem_clearBits {b : BitMap} {i : Nat} :
    i ∈ b.clearBits ↔ i < b.numBits ∧ b.bit i = false := by
  simp [clearBits]

/-- `Find` takes the first one. -/
theorem Find_of_clearBits {b : BitMap} {i : Nat} {rest : List Nat}
    (h : b.clearBits = i :: rest) : b.Find = ((i : Int), b.markBit i) := by
  have hfirst : BitSet.firstClear b.map b.numBits = b.clearBits.head? :=
    List.head?_filter.symm
  rw [h, List.head?_cons] at hfirst
  rw [Find, hfirst]

theorem clearBits_markBit {b : BitMap} {i : Nat} {rest : List Nat}
    (h : b.clearBits = i :: rest) : (b.markBit i).clearBits = rest := by
  have hi := (mem_clearBits.mp (h ▸ List.mem_cons_self : i ∈ b.clearBits)).1
  have hnodup := b.nodup_clearBits
  rw [h, List.nodup_cons] at hnodup
  have hmark : (b.markBit i).clearBits = b.clearBits.filter (· ≠ i) := by
    simp only [clearBits, List.filter_filter, numBits_markBit, bit_markBit hi]
    refine List.filter_congr fun j _ => ?_
    simp [Bool.and_comm]
  rw [hmark, h, List.filter_cons_of_neg (by simp), List.filter_eq_self]
  intro j hj
  have hne : j ≠ i := fun heq => hnodup.1 (heq ▸ hj)
  simpa using hne

end BitMap

end DistributedAscii.NachOS
