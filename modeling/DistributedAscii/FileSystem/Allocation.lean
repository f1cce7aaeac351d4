import DistributedAscii.FileSystem.Layout

/-!
# FileSystem — the allocator and the writer on a layout

The code of `checkBlockAvaible` and `allocateContent` on the bytes of a
layout computes the operation of the layout. The lemmas on the allocator
also allow an unfinished block behind the layout, their `tail`: the scan
ends before it.
-/

namespace DistributedAscii.FileSystem

open Lib.ByteFile

namespace Layout

/-! ## `checkBlockAvaible` -/

/-- The scan over the blocks from number `k` on. -/
theorem scanFree_blocks (blocks : List Block) (head : Bytes) {tail : Bytes} {k n : Nat}
    (hhead : head.length = 256 * k) (hn : blocks.length ≤ n) (htail : tail.length < 256) :
    scanFree (head ++ blocks.flatMap Block.toBytes ++ tail) (List.range' k n)
      = (blocks.findIdx? (fun b => b.link = 0)).map (· + k) := by
  induction blocks generalizing head k n with
  | nil =>
      cases n with
      | zero => rfl
      | succ n =>
          -- the file ends before the next link byte
          have hnone : (head ++ List.flatMap Block.toBytes [] ++ tail)[k * 256 + 255]?
              = none := by
            rw [List.flatMap_nil, List.append_nil, List.getElem?_eq_none_iff,
              List.length_append]
            omega
          simp only [List.range'_succ, scanFree, hnone, List.findIdx?_nil, Option.map_none]
  | cons b rest ih =>
      obtain ⟨n, rfl⟩ : ∃ m, n = m + 1 := ⟨n - 1, by simp only [List.length_cons] at hn; omega⟩
      have hlink : (head ++ (b :: rest).flatMap Block.toBytes ++ tail)[k * 256 + 255]?
          = some b.link := by
        have hb : b.data.length = 255 := b.size_data
        rw [List.flatMap_cons, Block.toBytes, List.append_assoc, List.append_assoc,
          List.append_assoc, List.getElem?_append_right (by omega),
          List.getElem?_append_right (by omega), show k * 256 + 255 - head.length
            - b.data.length = 0 by omega]
        rfl
      have hmove : head ++ (b :: rest).flatMap Block.toBytes ++ tail
          = (head ++ b.toBytes) ++ rest.flatMap Block.toBytes ++ tail := by
        simp only [List.flatMap_cons, List.append_assoc]
      simp only [List.range'_succ, scanFree, hlink]
      by_cases h0 : b.link = 0
      · simp [h0, List.findIdx?_cons]
      · -- `b` is in use and becomes a part of the head
        have hih := ih (head ++ b.toBytes) (k := k + 1) (n := n)
          (by rw [List.length_append, Block.length_toBytes]; omega)
          (by simp only [List.length_cons] at hn; omega)
        rw [if_neg h0, hmove, hih, List.findIdx?_cons]
        simp only [h0, decide_false, Bool.false_eq_true, if_false, Option.map_map]
        congr 1
        funext i
        simp only [Function.comp]
        omega

variable (L : Layout)

theorem scanFree_toBytes {tail : Bytes} (htail : tail.length < 256) :
    scanFree (L.toBytes ++ tail) (List.range' 1 254) = L.freeIndex.map (· + 1) :=
  scanFree_blocks L.blocks L.directory (by rw [length_directory]) L.blocks_le htail

/-- The free counter is byte 255. -/
theorem getD_counter (tail : Bytes) : (L.toBytes ++ tail).getD 255 0 = L.counter := by
  have hlen : (L.slots ++ List.replicate (255 - 17 * L.entries.length) 0).length = 255 := by
    have h := L.length_directory
    simp only [directory, List.length_append, List.length_singleton] at h
    rw [List.length_append]
    omega
  rw [List.getD_eq_getElem?_getD, toBytes, directory, List.append_assoc, List.append_assoc,
    List.getElem?_append_right (by omega), hlen]
  rfl

/-- Writing the counter. -/
theorem fwrite_counter (c : UInt8) (hc : c ≠ 0) (tail : Bytes) :
    fwrite (L.toBytes ++ tail) 255 [c]
      = { L with counter := c, counter_ne := hc : Layout }.toBytes ++ tail := by
  have hlen : (L.slots ++ List.replicate (255 - 17 * L.entries.length) 0).length = 255 := by
    have h := L.length_directory
    simp only [directory, List.length_append, List.length_singleton] at h
    rw [List.length_append]
    omega
  have hmid := writeAt_middle (0 : UInt8)
    (L.slots ++ List.replicate (255 - 17 * L.entries.length) 0) [L.counter]
    (L.blocks.flatMap Block.toBytes ++ tail) [c] rfl
  rw [hlen] at hmid
  rw [fwrite, toBytes, directory, List.append_assoc, hmid]
  simp only [toBytes, directory, slots, List.append_assoc]

/-- Writing the link byte of a block that is there. -/
theorem fwrite_link {i : Nat} (hi : i < L.blocks.length) (link : UInt8) (tail : Bytes) :
    fwrite (L.toBytes ++ tail) ((i + 1) * 256 + 255) [link]
      = L.directory ++ (L.blocks.modify i (Block.withLink link)).flatMap Block.toBytes
        ++ tail := by
  have hold : (L.blocks[i]).toBytes = (L.blocks[i]).data ++ [(L.blocks[i]).link] ++ [] := by
    rw [List.append_nil, Block.toBytes]
  have hnew : (Block.withLink link L.blocks[i]).toBytes
      = (L.blocks[i]).data ++ [link] ++ [] := by
    rw [List.append_nil, Block.toBytes, Block.withLink]
  have h := writeAt_record Block.length_toBytes (0 : UInt8) L.directory hi hold hnew rfl tail
  rw [length_directory, (L.blocks[i]).size_data] at h
  rw [fwrite, show (i + 1) * 256 + 255 = 256 + 256 * i + 255 by ring]
  exact h

theorem alloc_of_free {i : Nat} (h : L.freeIndex = some i) :
    L.alloc = (.ofIndex i (freeIndex_lt h), L.claim i) := by
  unfold alloc
  split
  · rename_i j hj
    rw [h] at hj
    cases hj
    rfl
  · rename_i hj
    rw [h] at hj
    cases hj

theorem alloc_of_counter (h : L.freeIndex = none) (hc : L.counter ≠ 255) :
    L.alloc = (.ofCounter L.counter L.counter_ne hc, L.bump hc) := by
  unfold alloc
  split
  · rename_i j hj
    rw [h] at hj
    cases hj
  · rw [dif_pos hc]

theorem alloc_of_exhausted (h : L.freeIndex = none) (hc : L.counter = 255) :
    L.alloc = (.one, L) := by
  unfold alloc
  split
  · rename_i j hj
    rw [h] at hj
    cases hj
  · rw [dif_neg (by rw [hc]; decide)]

/-- **The allocator**: the code on a layout, possibly with half a block
behind it. -/
theorem checkBlockAvaible_toBytes (tail : Bytes) (htail : tail.length < 256) :
    checkBlockAvaible (L.toBytes ++ tail) = (L.alloc.1.val, L.alloc.2.toBytes ++ tail) := by
  unfold checkBlockAvaible
  rw [scanFree_toBytes L htail]
  cases hf : L.freeIndex with
  | some i =>
      have hi : i < L.blocks.length := by
        rw [freeIndex, List.findIdx?_eq_some_iff_getElem] at hf
        exact hf.1
      rw [alloc_of_free L hf]
      simp only [Option.map_some, fwrite_link L hi]
      rfl
  | none =>
      simp only [Option.map_none, getD_counter L tail]
      by_cases hc : L.counter = 255
      · rw [alloc_of_exhausted L hf hc, if_neg (by simp [hc])]
        rfl
      · rw [alloc_of_counter L hf hc, if_pos hc, fwrite_counter L _ (one_add_ne_zero hc)]
        rfl

theorem length_blocks_alloc : L.alloc.2.blocks.length = L.blocks.length := by
  cases hf : L.freeIndex with
  | some i => rw [alloc_of_free L hf, claim, List.length_modify]
  | none =>
      by_cases hc : L.counter = 255
      · rw [alloc_of_exhausted L hf hc]
      · rw [alloc_of_counter L hf hc, bump]

/-! ## `allocateContent` -/

theorem flatMap_zero_blocks (n : Nat) :
    (List.replicate n Block.zero).flatMap Block.toBytes = List.replicate (256 * n) 0 := by
  induction n with
  | zero => rfl
  | succ n ih =>
      rw [List.replicate_succ, List.flatMap_cons, ih, Block.toBytes_zero,
        List.replicate_append_replicate, Nat.mul_succ, Nat.add_comm]

/-- Writing a block with its link byte. -/
theorem fwrite_writeBlock (b : BlockNo) {data : Bytes} (h : data.length = 255)
    (link : UInt8) :
    fwrite L.toBytes (b.val.toNat * 256) (data ++ [link])
      = (L.writeBlock b data h link).toBytes := by
  have hnew : data ++ [link] = Block.toBytes ⟨data, link, h⟩ := rfl
  have hpos : b.val.toNat * 256 = 256 + 256 * b.index := by
    rw [BlockNo.toNat_eq]
    ring
  rw [writeBlock, hnew, hpos]
  split
  · rename_i hlt
    have hold : (L.blocks[b.index]).toBytes = [] ++ (L.blocks[b.index]).toBytes ++ [] := by
      rw [List.nil_append, List.append_nil]
    have hblock : Block.toBytes ⟨data, link, h⟩ = [] ++ Block.toBytes ⟨data, link, h⟩ ++ [] := by
      rw [List.nil_append, List.append_nil]
    have hrec := writeAt_record Block.length_toBytes (0 : UInt8) L.directory hlt
      (f := fun _ => ⟨data, link, h⟩) hold hblock
      (by rw [Block.length_toBytes, Block.length_toBytes]) []
    rw [length_directory, List.append_nil, List.append_nil, List.length_nil, Nat.add_zero,
      ← List.set_eq_modify] at hrec
    exact hrec
  · -- the file ends in front of the block: the gap becomes zero blocks
    have hgap : 256 + 256 * b.index
        = L.toBytes.length + 256 * (b.index - L.blocks.length) := by
      rw [length_toBytes]
      omega
    rw [hgap, fwrite, writeAt_gap]
    simp only [toBytes, growTo, directory, slots, List.flatMap_append, List.flatMap_cons,
      List.flatMap_nil, flatMap_zero_blocks, List.append_assoc, List.append_nil]

theorem extractContent_some {host : Host} {path : CString} {content : Bytes}
    (hpath : host path = some content) (data : Bytes) (index : Nat) :
    extractContent host data path index
      = (if content.length < (index + 1) * 255 then 2 else exitSuccess,
          chunk content index) := by
  have hread : (readAt content (index * 255) 255).length < 255
      ↔ content.length < (index + 1) * 255 := by
    rw [readAt, List.length_take, List.length_drop]
    omega
  simp only [extractContent, hpath, chunk, hread]

/-- **The writer**: the code on a layout, whatever the chains in it. -/
theorem contentLoop_toBytes {host : Host} {path : CString} {content : Bytes}
    (hpath : host path = some content) (fuel index : Nat) (b : BlockNo) (L : Layout) :
    contentLoop host path fuel index b.val L.toBytes
      = ((store content fuel index b L).1, (store content fuel index b L).2.toBytes) := by
  induction fuel generalizing index b L with
  | zero => rfl
  | succ fuel ih =>
      have hdata := length_chunk content index
      have halloc := checkBlockAvaible_toBytes L [] (by decide)
      rw [List.append_nil, List.append_nil] at halloc
      rw [contentLoop, store, extractContent_some hpath]
      dsimp only
      by_cases hlast : content.length < (index + 1) * 255
      · rw [if_pos hlast, if_pos rfl, if_pos hlast, fwrite_writeBlock L b hdata]
      · have hne : exitSuccess ≠ 2 := by decide
        rw [if_neg hlast, if_neg hne, if_neg hlast, halloc,
          fwrite_writeBlock L.alloc.2 b hdata, ih]

end Layout

end DistributedAscii.FileSystem
