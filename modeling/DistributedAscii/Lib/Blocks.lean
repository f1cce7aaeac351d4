import Mathlib.Data.List.GetD
import DistributedAscii.Lib.ByteFile

/-!
# Lib — files in blocks

A store that moves whole blocks of one size, and a file whose cells lie in
them: cell `k` is in block `k / size`. `gather` is the buffer of consecutive
blocks. Any range of cells is a window of the buffer of the blocks that it
touches (`window_gather`), and a buffer that is written back block by block
is read again cell by cell (`cell_scatter`). Alignment appears nowhere else.
-/

namespace DistributedAscii.Lib.Blocks

variable {α : Type*} (blank : α) {size : Nat}

/-- Cell `k` of a file in blocks. -/
def cell (size : Nat) (block : Nat → List α) (k : Nat) : α :=
  (block (k / size)).getD (k % size) blank

/-- Blocks `first`, …, `first + n - 1` one behind the other. -/
def gather (block : Nat → List α) (first : Nat) : Nat → List α
  | 0 => []
  | n + 1 => block first ++ gather block (first + 1) n

/-- Block `i` of a buffer. -/
def blockAt (size : Nat) (buffer : List α) (i : Nat) : List α :=
  (buffer.drop (i * size)).take size

/-- The cells of gathered blocks are those of the file. -/
theorem getElem?_gather {block : Nat → List α} (h : ∀ i, (block i).length = size)
    {first n j : Nat} (hj : j < n * size) :
    (gather block first n)[j]? = some (cell blank size block (first * size + j)) := by
  have hsize : 0 < size := Nat.pos_of_ne_zero fun h0 => by simp [h0] at hj
  induction n generalizing first j with
  | zero => simp at hj
  | succ n ih =>
      rw [gather]
      rcases Nat.lt_or_ge j size with hlt | hge
      · -- the first of the blocks
        rw [List.getElem?_append_left (by rw [h]; exact hlt), cell, Nat.mul_comm,
          Nat.mul_add_div hsize, Nat.div_eq_of_lt hlt, Nat.add_zero, Nat.mul_add_mod,
          Nat.mod_eq_of_lt hlt, List.getD_eq_getElem _ _ (by rw [h]; exact hlt),
          List.getElem?_eq_getElem]
      · have hrest : j - size < n * size := by
          rw [Nat.succ_mul] at hj
          omega
        rw [List.getElem?_append_right (by rw [h]; exact hge), h, ih hrest]
        congr 2
        rw [Nat.succ_mul]
        omega

/-- **Any range of cells** is a window of the blocks that it touches. -/
theorem window_gather {block : Nat → List α} (h : ∀ i, (block i).length = size)
    {first n pos count : Nat} (hfirst : first * size ≤ pos)
    (hlast : pos + count ≤ (first + n) * size) :
    ((gather block first n).drop (pos - first * size)).take count
      = (List.range count).map fun j => cell blank size block (pos + j) := by
  rw [Nat.add_mul] at hlast
  apply List.ext_getElem?
  intro j
  rw [List.getElem?_take, List.getElem?_drop, List.getElem?_map]
  split
  case isTrue hj =>
    rw [getElem?_gather blank h (by omega), List.getElem?_range hj, Option.map_some]
    congr 2
    omega
  case isFalse hj => rw [List.getElem?_eq_none (by simpa using hj), Option.map_none]

/-- **A buffer that is written back**: the blocks from `first` on are those
of the buffer, another one stays. -/
theorem cell_scatter {block block' : Nat → List α} {buffer : List α} {first n k : Nat}
    (hsize : 0 < size) (hin : ∀ i < n, block' (first + i) = blockAt size buffer i)
    (hout : k / size < first ∨ first + n ≤ k / size → block' (k / size) = block (k / size)) :
    cell blank size block' k =
      if first * size ≤ k ∧ k < (first + n) * size then buffer.getD (k - first * size) blank
      else cell blank size block k := by
  have hle : first ≤ k / size ↔ first * size ≤ k := Nat.le_div_iff_mul_le hsize
  have hlt : k / size < first + n ↔ k < (first + n) * size := Nat.div_lt_iff_lt_mul hsize
  split
  case isTrue hk =>
    obtain ⟨hfirst, hlast⟩ := hk
    have hblock : block' (k / size) = blockAt size buffer (k / size - first) := by
      rw [← hin (k / size - first) (by omega)]
      congr 1
      omega
    have hmod := Nat.mod_lt k hsize
    have hplace : (k / size - first) * size + k % size = k - first * size := by
      have hsplit := Nat.div_add_mod' k size
      have hle := Nat.mul_le_mul_right size (hle.mpr hfirst)
      rw [Nat.sub_mul]
      omega
    rw [cell, hblock, blockAt, List.getD_eq_getElem?_getD, List.getElem?_take, if_pos hmod,
      List.getElem?_drop, hplace, List.getD_eq_getElem?_getD]
  case isFalse hk =>
    have hsame : block' (k / size) = block (k / size) := by
      refine hout ?_
      by_contra hinside
      exact hk ⟨hle.mp (by omega), hlt.mp (by omega)⟩
    rw [cell, cell, hsame]

/-! ## Ranges in a buffer -/

/-- A range of a buffer is overwritten in place. -/
theorem getD_writeAt {buffer new : List α} {pos : Nat} (h : pos + new.length ≤ buffer.length)
    (k : Nat) :
    (ByteFile.writeAt blank buffer pos new).getD k blank =
      if pos ≤ k ∧ k < pos + new.length then new.getD (k - pos) blank
      else buffer.getD k blank := by
  have hgap : pos - buffer.length = 0 := by omega
  have hfront : (buffer.take pos).length = pos := by
    rw [List.length_take]
    omega
  rw [ByteFile.writeAt, hgap, List.replicate_zero, List.append_nil, List.append_assoc]
  simp only [List.getD_eq_getElem?_getD]
  rcases Nat.lt_or_ge k pos with hlt | hge
  · rw [List.getElem?_append_left (by omega), List.getElem?_take, if_pos hlt, if_neg (by omega)]
  · rw [List.getElem?_append_right (by omega), hfront]
    rcases Nat.lt_or_ge k (pos + new.length) with hin | hout
    · rw [List.getElem?_append_left (by omega), if_pos ⟨hge, hin⟩]
    · rw [List.getElem?_append_right (by omega), List.getElem?_drop, if_neg (by omega)]
      congr 2
      omega

theorem length_writeAt {buffer new : List α} {pos : Nat} (h : pos + new.length ≤ buffer.length) :
    (ByteFile.writeAt blank buffer pos new).length = buffer.length := by
  have hgap : pos - buffer.length = 0 := by omega
  rw [ByteFile.writeAt, hgap]
  simp only [List.replicate_zero, List.append_nil, List.length_append, List.length_take,
    List.length_drop]
  omega

/-! ## Files of a fixed size -/

/-- A file whose size stays: a write is cut off at its end. -/
def splice (file : List α) (pos : Nat) (new : List α) : List α :=
  file.take pos ++ new.take (file.length - pos) ++ file.drop (pos + new.length)

@[simp] theorem length_splice (file : List α) (pos : Nat) (new : List α) :
    (splice file pos new).length = file.length := by
  simp only [splice, List.length_append, List.length_take, List.length_drop]
  omega

theorem getD_splice {file : List α} {k : Nat} (hk : k < file.length) (pos : Nat) (new : List α) :
    (splice file pos new).getD k blank =
      if pos ≤ k ∧ k < pos + new.length then new.getD (k - pos) blank
      else file.getD k blank := by
  simp only [splice, List.append_assoc, List.getD_eq_getElem?_getD]
  rcases Nat.lt_or_ge k pos with hlt | hge
  · have hfront : k < (file.take pos).length := by
      rw [List.length_take]
      omega
    rw [List.getElem?_append_left hfront, List.getElem?_take, if_pos hlt, if_neg (by omega)]
  · have hfront : (file.take pos).length = pos := by
      rw [List.length_take]
      omega
    rw [List.getElem?_append_right (by omega), hfront]
    rcases Nat.lt_or_ge k (pos + new.length) with hin | hout
    · have hmid : k - pos < (new.take (file.length - pos)).length := by
        rw [List.length_take]
        omega
      rw [List.getElem?_append_left hmid, List.getElem?_take, if_pos (by omega), if_pos ⟨hge, hin⟩]
    · have hmid : (new.take (file.length - pos)).length = new.length := by
        rw [List.length_take]
        omega
      rw [List.getElem?_append_right (by omega), List.getElem?_drop, if_neg (by omega), hmid]
      congr 2
      omega

/-- Cell by cell. -/
theorem eq_splice {file file' : List α} {pos : Nat} {new : List α}
    (hlength : file'.length = file.length)
    (h : ∀ k < file.length, file'.getD k blank =
      if pos ≤ k ∧ k < pos + new.length then new.getD (k - pos) blank
      else file.getD k blank) : file' = splice file pos new := by
  refine List.ext_getElem (by rw [hlength, length_splice]) fun k hk hk' => ?_
  have hk : k < file.length := by omega
  have hcell := (h k hk).trans (getD_splice blank hk pos new).symm
  rwa [List.getD_eq_getElem _ _ (by omega), List.getD_eq_getElem _ _ hk'] at hcell

/-- What is written is read back, as far as the file goes. -/
theorem readAt_splice (file : List α) (pos : Nat) (new : List α) :
    ByteFile.readAt (splice file pos new) pos new.length = new.take (file.length - pos) := by
  rcases Nat.lt_or_ge file.length pos with hlt | hge
  · rw [ByteFile.readAt, List.drop_eq_nil_of_le (by rw [length_splice]; omega), List.take_nil,
      Nat.sub_eq_zero_of_le (by omega), List.take_zero]
  · have hfront : (file.take pos).length = pos := by
      rw [List.length_take]
      omega
    rw [ByteFile.readAt, splice, List.append_assoc]
    conv_lhs => rw [← hfront]
    rw [hfront, List.drop_append_of_le_length (by omega), List.drop_of_length_le (by omega),
      List.nil_append]
    rcases Nat.lt_or_ge (file.length - pos) new.length with hcut | hfits
    · have htail : file.drop (pos + new.length) = [] := List.drop_eq_nil_of_le (by omega)
      rw [htail, List.append_nil, List.take_take, Nat.min_eq_right (by omega)]
    · rw [List.take_of_length_le hfits, List.take_left]

/-- A range that the write does not reach. -/
theorem readAt_splice_of_apart (file : List α) {pos p n : Nat} {new : List α}
    (h : p + n ≤ pos ∨ pos + new.length ≤ p) :
    ByteFile.readAt (splice file pos new) p n = ByteFile.readAt file p n := by
  apply List.ext_getElem?
  intro k
  rw [ByteFile.readAt, ByteFile.readAt, List.getElem?_take, List.getElem?_take]
  split
  case isFalse => rfl
  case isTrue hk =>
    rw [List.getElem?_drop, List.getElem?_drop]
    rcases Nat.lt_or_ge (p + k) file.length with hlt | hge
    · have hcell := getD_splice file[p + k] hlt pos new
      rw [if_neg (by omega), List.getD_eq_getElem _ _ hlt,
        List.getD_eq_getElem _ _ (by rwa [length_splice])] at hcell
      rw [List.getElem?_eq_getElem hlt, List.getElem?_eq_getElem (by rwa [length_splice]), hcell]
    · rw [List.getElem?_eq_none hge, List.getElem?_eq_none (by rwa [length_splice])]

/-- A write of the whole file. -/
theorem splice_whole {file new : List α} (h : new.length = file.length) :
    splice file 0 new = new := by
  rw [splice, List.take_zero, List.nil_append, Nat.sub_zero, List.take_of_length_le (by omega),
    List.drop_of_length_le (by omega), List.append_nil]

theorem writeAt_whole {file new : List α} (h : new.length = file.length) :
    ByteFile.writeAt blank file 0 new = new := by
  rw [ByteFile.writeAt, List.take_zero, Nat.zero_sub, List.replicate_zero, List.nil_append,
    List.nil_append, List.drop_of_length_le (by omega), List.append_nil]

theorem readAt_whole {file : List α} {n : Nat} (h : file.length ≤ n) :
    ByteFile.readAt file 0 n = file := by
  rw [ByteFile.readAt, List.drop_zero, List.take_of_length_le h]

end DistributedAscii.Lib.Blocks
