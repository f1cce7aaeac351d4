import Mathlib.Data.List.GetD
import DistributedAscii.Lib.ByteFile

/-!
# Lib — little-endian words

A 32-bit word as four bytes, the least significant one first, and a list of
bytes read as an array of such words. Writing words and reading them again
is the identity (`wordAt_flatMap`), which is all that a record of integers
in a byte store rests on.
-/

namespace DistributedAscii.Lib.Words

/-- The bytes of a word. -/
def bytesOf (w : BitVec 32) : List (BitVec 8) :=
  [w.extractLsb' 0 8, w.extractLsb' 8 8, w.extractLsb' 16 8, w.extractLsb' 24 8]

/-- The word of four bytes. -/
def ofBytes (b₀ b₁ b₂ b₃ : BitVec 8) : BitVec 32 :=
  (b₃ ++ b₂ ++ b₁ ++ b₀ : BitVec (8 + 8 + 8 + 8))

/-- Word `i` of an array of words. -/
def wordAt (bytes : List (BitVec 8)) (i : Nat) : BitVec 32 :=
  ofBytes (bytes.getD (4 * i) 0) (bytes.getD (4 * i + 1) 0) (bytes.getD (4 * i + 2) 0)
    (bytes.getD (4 * i + 3) 0)

/-- The first `n` words. -/
def words (bytes : List (BitVec 8)) (n : Nat) : List (BitVec 32) :=
  (List.range n).map (wordAt bytes)

@[simp] theorem length_bytesOf (w : BitVec 32) : (bytesOf w).length = 4 := rfl

@[simp] theorem length_words (bytes : List (BitVec 8)) (n : Nat) : (words bytes n).length = n := by
  simp [words]

theorem getLsbD_ofBytes (b₀ b₁ b₂ b₃ : BitVec 8) (i : Nat) :
    (ofBytes b₀ b₁ b₂ b₃).getLsbD i =
      if i < 8 then b₀.getLsbD i
      else if i - 8 < 8 then b₁.getLsbD (i - 8)
      else if i - 8 - 8 < 8 then b₂.getLsbD (i - 8 - 8)
      else b₃.getLsbD (i - 8 - 8 - 8) := by
  change (b₃ ++ b₂ ++ b₁ ++ b₀ : BitVec (8 + 8 + 8 + 8)).getLsbD i = _
  simp only [BitVec.getLsbD_append]

theorem ofBytes_bytesOf (w : BitVec 32) :
    ofBytes (w.extractLsb' 0 8) (w.extractLsb' 8 8) (w.extractLsb' 16 8) (w.extractLsb' 24 8)
      = w := by
  refine BitVec.eq_of_getLsbD_eq fun i hi => ?_
  rw [getLsbD_ofBytes]
  simp only [BitVec.getLsbD_extractLsb']
  split
  · simp [*]
  · split
    · simp only [*, decide_true, Bool.true_and]
      congr 1
      omega
    · split
      · simp only [*, decide_true, Bool.true_and]
        congr 1
        omega
      · have hlast : i - 8 - 8 - 8 < 8 := by omega
        simp only [hlast, decide_true, Bool.true_and]
        congr 1
        omega

/-- A byte of an array of words. -/
theorem getD_flatMap {ws : List (BitVec 32)} {i off : Nat} (hi : i < ws.length) (hoff : off < 4) :
    (ws.flatMap bytesOf).getD (4 * i + off) 0 = (bytesOf ws[i]).getD off 0 := by
  have hcell := ByteFile.getElem?_record length_bytesOf [] hi hoff []
  rw [List.nil_append, List.append_nil, List.length_nil, Nat.zero_add] at hcell
  rw [List.getD_eq_getElem?_getD, List.getD_eq_getElem?_getD, hcell]

/-- **Round trip** of one word. -/
theorem wordAt_flatMap (ws : List (BitVec 32)) {i : Nat} (hi : i < ws.length) :
    wordAt (ws.flatMap bytesOf) i = ws[i] := by
  have h0 := getD_flatMap hi (show 0 < 4 by decide)
  rw [Nat.add_zero] at h0
  rw [wordAt, h0, getD_flatMap hi (by decide), getD_flatMap hi (by decide),
    getD_flatMap hi (by decide)]
  exact ofBytes_bytesOf ws[i]

/-- **Round trip** of an array. -/
theorem words_flatMap (ws : List (BitVec 32)) : words (ws.flatMap bytesOf) ws.length = ws := by
  refine List.ext_getElem (length_words ..) fun i hi hi' => ?_
  simp only [words, List.getElem_map, List.getElem_range]
  exact wordAt_flatMap ws hi'

@[simp] theorem length_flatMap (ws : List (BitVec 32)) :
    (ws.flatMap bytesOf).length = 4 * ws.length :=
  ByteFile.length_records length_bytesOf ws

/-- What stands behind an array is not read. -/
theorem wordAt_append {bytes : List (BitVec 8)} {i : Nat} (h : 4 * i + 4 ≤ bytes.length)
    (rest : List (BitVec 8)) : wordAt (bytes ++ rest) i = wordAt bytes i := by
  rw [wordAt, wordAt, List.getD_append _ _ _ _ (by omega), List.getD_append _ _ _ _ (by omega),
    List.getD_append _ _ _ _ (by omega), List.getD_append _ _ _ _ (by omega)]

/-- What is read depends on the bytes of the array only. -/
theorem words_congr {bytes bytes' : List (BitVec 8)} {n : Nat}
    (h : ∀ k < 4 * n, bytes.getD k 0 = bytes'.getD k 0) : words bytes n = words bytes' n := by
  refine List.map_congr_left fun i hi => ?_
  have hi : i < n := List.mem_range.mp hi
  rw [wordAt, wordAt, h _ (by omega), h _ (by omega), h _ (by omega), h _ (by omega)]

end DistributedAscii.Lib.Words
