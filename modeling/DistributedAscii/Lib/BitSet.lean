import Mathlib.Data.Nat.Init
import Mathlib.Tactic

/-!
# Lib — bit sets

A set of numbers below a bound, one bit each in a list of words. The three
operations work on a word and a mask; `test_mark` and `test_clear` say what
they do to the set, and what is proved about a bit set rests on these two.
`firstClear` is the search for the first number that is not in the set.
-/

namespace DistributedAscii.Lib.BitSet

variable {w : Nat}

/-- The mask of place `i` within its word. -/
def mask (w i : Nat) : BitVec w :=
  1#w <<< (i % w)

def test (words : List (BitVec w)) (i : Nat) : Bool :=
  words.getD (i / w) 0 &&& mask w i != 0

def mark (words : List (BitVec w)) (i : Nat) : List (BitVec w) :=
  words.modify (i / w) (· ||| mask w i)

def clear (words : List (BitVec w)) (i : Nat) : List (BitVec w) :=
  words.modify (i / w) (· &&& ~~~mask w i)

@[simp] theorem length_mark (words : List (BitVec w)) (i : Nat) :
    (mark words i).length = words.length := by
  simp [mark]

@[simp] theorem length_clear (words : List (BitVec w)) (i : Nat) :
    (clear words i).length = words.length := by
  simp [clear]

/-! ## One word -/

section Word

variable [NeZero w]

theorem getLsbD_mask (i j : Nat) :
    (mask w i).getLsbD (j % w) = decide (j % w = i % w) := by
  have hi : i % w < w := Nat.mod_lt _ (NeZero.pos w)
  rw [mask, ← BitVec.twoPow_eq, BitVec.getLsbD_twoPow]
  simp [hi, eq_comm]

/-- The mask picks out one bit. -/
theorem and_mask_ne_zero (x : BitVec w) (i : Nat) :
    (x &&& mask w i != 0) = x.getLsbD (i % w) := by
  have hi : i % w < w := Nat.mod_lt _ (NeZero.pos w)
  rw [mask, ← BitVec.twoPow_eq, BitVec.and_twoPow]
  cases x.getLsbD (i % w) with
  | false => simp
  | true =>
      have hne : BitVec.twoPow w (i % w) ≠ 0 := by
        intro h
        have hbit := congrArg (fun y => BitVec.getLsbD y (i % w)) h
        simp [hi] at hbit
      simpa using hne

omit [NeZero w] in
theorem eq_iff_place {i j : Nat} (hword : i / w = j / w) : j = i ↔ j % w = i % w := by
  constructor
  · exact fun h => by rw [h]
  · intro h
    rw [← Nat.div_add_mod j w, ← Nat.div_add_mod i w, hword, h]

theorem test_eq_getLsbD (words : List (BitVec w)) (i : Nat) :
    test words i = (words.getD (i / w) 0).getLsbD (i % w) :=
  and_mask_ne_zero ..

/-! ## The set behind an operation -/

theorem test_mark {words : List (BitVec w)} {i : Nat} (hi : i / w < words.length) (j : Nat) :
    test (mark words i) j = (test words j || decide (j = i)) := by
  rw [test_eq_getLsbD, test_eq_getLsbD]
  by_cases hword : i / w = j / w
  · have hplace := eq_iff_place hword
    have hj : j / w < words.length := hword ▸ hi
    simp only [mark, List.getD_eq_getElem?_getD, hword, List.getElem?_modify_eq,
      List.getElem?_eq_getElem hj, Option.map_eq_map, Option.map_some, Option.getD_some,
      BitVec.getLsbD_or, getLsbD_mask, hplace]
  · have hne : j ≠ i := fun h => hword (by rw [h])
    simp [mark, List.getD_eq_getElem?_getD, hword, hne]

theorem test_clear {words : List (BitVec w)} {i : Nat} (hi : i / w < words.length) (j : Nat) :
    test (clear words i) j = (test words j && !decide (j = i)) := by
  rw [test_eq_getLsbD, test_eq_getLsbD]
  by_cases hword : i / w = j / w
  · have hplace := eq_iff_place hword
    have hj : j / w < words.length := hword ▸ hi
    have hbound : j % w < w := Nat.mod_lt _ (NeZero.pos w)
    simp only [clear, List.getD_eq_getElem?_getD, hword, List.getElem?_modify_eq,
      List.getElem?_eq_getElem hj, Option.map_eq_map, Option.map_some, Option.getD_some,
      BitVec.getLsbD_and, BitVec.getLsbD_not, hbound, decide_true, Bool.true_and, getLsbD_mask,
      hplace]
  · have hne : j ≠ i := fun h => hword (by rw [h])
    simp [clear, List.getD_eq_getElem?_getD, hword, hne]

end Word

/-! ## The search -/

/-- The first of `n` places that is not in the set. -/
def firstClear (words : List (BitVec w)) (n : Nat) : Option Nat :=
  (List.range n).find? fun i => !test words i

theorem firstClear_eq_none {words : List (BitVec w)} {n : Nat} :
    firstClear words n = none ↔ ∀ i < n, test words i = true := by
  simp [firstClear, List.find?_eq_none]

theorem firstClear_some {words : List (BitVec w)} {n i : Nat}
    (h : firstClear words n = some i) :
    i < n ∧ test words i = false ∧ ∀ j < i, test words j = true := by
  obtain ⟨hclear, hmem, hfirst⟩ := List.find?_range_eq_some.mp h
  refine ⟨by simpa using hmem, by simpa using hclear, fun j hj => ?_⟩
  simpa using hfirst j hj

end DistributedAscii.Lib.BitSet
