import DistributedAscii.FileSystem.FileMap

/-!
# FileSystem — reading blocks back

`extractBlock` on the bytes of a layout: block 0 is the directory, a block
that the file has is read as it is, and behind the end of the file the
buffer stays zero. In every case byte 255 of the buffer is `Layout.link`.
-/

namespace DistributedAscii.FileSystem

open Lib.ByteFile

namespace Layout

variable (L : Layout)

/-- A read of 256 bytes that succeeds fills the buffer. -/
theorem readBlock_of_readAt {disk block : Bytes} {number : Nat}
    (h : readAt disk (number * 256) 256 = block) (hlen : block.length = 256) :
    readBlock disk number = block := by
  rw [readBlock, fread, List.length_replicate, h, hlen,
    List.drop_of_length_le (by rw [List.length_replicate]), List.append_nil]

theorem readAt_block {i : Nat} (hi : i < L.blocks.length) :
    readAt L.toBytes ((i + 1) * 256) 256 = (L.blocks[i]).toBytes := by
  have h := readAt_record Block.length_toBytes L.directory hi []
  rw [List.append_nil, length_directory] at h
  rw [show (i + 1) * 256 = 256 + 256 * i by ring]
  exact h

theorem readBlock_block {i : Nat} (hi : i < L.blocks.length) :
    readBlock L.toBytes (i + 1) = (L.blocks[i]).toBytes :=
  readBlock_of_readAt (L.readAt_block hi) (Block.length_toBytes _)

/-- Byte 255 of the buffer is the byte of the file, 0 if it has none. -/
theorem getD_readBlock_disk (disk : Disk) (number : Nat) :
    (readBlock disk number).getD 255 0 = disk.getD (number * 256 + 255) 0 := by
  have hread : (readAt disk (number * 256) 256)[255]? = disk[number * 256 + 255]? := by
    rw [readAt, List.getElem?_take_of_lt (by omega), List.getElem?_drop]
  rw [readBlock, fread, List.length_replicate, List.getD_eq_getElem?_getD,
    List.getD_eq_getElem?_getD, ← hread]
  by_cases hlen : 255 < (readAt disk (number * 256) 256).length
  · rw [List.getElem?_append_left hlen]
  · -- the read ended before: the buffer is still zero there
    have hnone : (readAt disk (number * 256) 256)[255]? = none :=
      List.getElem?_eq_none (by omega)
    rw [List.getElem?_append_right (by omega), hnone, List.drop_replicate,
      List.getElem?_replicate]
    split <;> rfl

/-- The link byte as a byte of the file. -/
theorem getD_link (number : Nat) : L.toBytes.getD (number * 256 + 255) 0 = L.link number := by
  rw [link]
  cases number with
  | zero =>
      have h := L.getD_counter []
      rw [List.append_nil] at h
      rw [if_pos rfl, Nat.zero_mul, Nat.zero_add, h]
  | succ i =>
      rw [if_neg (Nat.succ_ne_zero i), Nat.add_sub_cancel]
      by_cases hi : i < L.blocks.length
      · have h := getElem?_record Block.length_toBytes L.directory hi
          (show 255 < 256 by omega) []
        rw [List.append_nil, length_directory] at h
        rw [List.getD_eq_getElem?_getD, show (i + 1) * 256 + 255 = 256 + 256 * i + 255 by ring,
          toBytes, h, ← List.getD_eq_getElem?_getD, Block.getD_toBytes,
          List.getElem?_eq_getElem hi]
        rfl
      · have hnone : L.blocks[i]? = none := List.getElem?_eq_none (by omega)
        have hpast : L.toBytes[(i + 1) * 256 + 255]? = none := by
          rw [List.getElem?_eq_none_iff, length_toBytes]
          omega
        rw [List.getD_eq_getElem?_getD, hpast, hnone]
        rfl

/-- The link byte of the buffer, for any block number. -/
theorem getD_readBlock (number : Nat) :
    (readBlock L.toBytes number).getD 255 0 = L.link number := by
  rw [getD_readBlock_disk, getD_link]

/-- `extractBlock` asked for a numbered block. -/
theorem extractBlock_block (name : CString) {number : Nat} (h : number ≠ 0) :
    extractBlock L.toBytes name number = some (readBlock L.toBytes number) := by
  rw [extractBlock, if_neg h]

/-- `extractBlock` asked for the first block. -/
theorem extractBlock_first {name : CString} (hname : 0 < name.length) {e : Entry}
    (h : L.find name = some e) :
    extractBlock L.toBytes name 0 = some (readBlock L.toBytes e.firstBlock.val.toNat) := by
  rw [extractBlock, if_pos rfl, existFile_toBytes L hname, h]
  rfl

end Layout

/-! ## Files that are kept -/

/-- The characters of chunk `j`. -/
theorem untilNul_chunk {text : Bytes} (h : 0 ∉ text) (j : Nat) :
    untilNul (Layout.chunk text j) = readAt text (j * 255) 255 := by
  rw [Layout.chunk, untilNul_padTo]
  intro h0
  exact h (List.mem_of_mem_drop (List.mem_of_mem_take h0))

/-- The chunks of a text follow each other. -/
theorem readAt_append_drop (text : Bytes) (j : Nat) :
    readAt text (j * 255) 255 ++ text.drop ((j + 1) * 255) = text.drop (j * 255) := by
  rw [readAt, show (j + 1) * 255 = j * 255 + 255 by ring, ← List.drop_drop,
    List.take_append_drop]

namespace Holds

variable {L : Layout} {fs : Files}

/-- The last block of a file is within the disk. -/
theorem first_add_le (h : Holds L fs) {k : Nat} (hk : k < fs.length) {j : Nat}
    (hj : j < needed fs[k].2) : 1 + total (fs.take k) + j ≤ 254 := by
  have hlt := (List.getElem?_eq_some_iff.mp (getElem?_allBlocks 1 hk hj)).1
  rw [length_allBlocks] at hlt
  have hle := h.total_le
  omega

/-- **Every chunk of a kept file is where its chain goes**: in the block
`j` behind the first one. -/
theorem readBlock (h : Holds L fs) {k : Nat} (hk : k < fs.length) {j : Nat}
    (hj : j < needed fs[k].2) :
    FileSystem.readBlock L.toBytes (1 + total (fs.take k) + j)
      = (fileBlock (1 + total (fs.take k)) fs[k].2 j).toBytes := by
  have hget := getElem?_allBlocks 1 hk hj
  rw [← h.blocks] at hget
  obtain ⟨hlt, hblk⟩ := List.getElem?_eq_some_iff.mp hget
  rw [show 1 + total (fs.take k) + j = total (fs.take k) + j + 1 by omega,
    L.readBlock_block hlt, hblk]

/-- The entry that the lookup finds for a file is the entry of that file. -/
theorem find_eq (h : Holds L fs) (hnodup : (fs.map Prod.fst).Nodup) {k : Nat}
    (hk : k < fs.length) {e : Entry} (hfind : L.find fs[k].1 = some e) :
    e.firstBlock.val.toNat = 1 + total (fs.take k) := by
  have hmem : e ∈ L.entries := List.mem_of_mem_take (List.mem_of_find?_eq_some hfind)
  have hname : e.name = fs[k].1 := by simpa using List.find?_some hfind
  obtain ⟨i, hi, hget⟩ := List.mem_iff_getElem.mp hmem
  have hi' : i < fs.length := by
    rw [← h.length_entries]
    exact hi
  obtain ⟨e', he', hname', hfirst⟩ := h.getElem?_entries hi'
  have heq : e = e' := by
    rw [List.getElem?_eq_getElem hi, hget] at he'
    exact Option.some.inj he'
  subst heq
  have hik : i = k := by
    have hi'' : i < (fs.map Prod.fst).length := by rwa [List.length_map]
    have hk'' : k < (fs.map Prod.fst).length := by rwa [List.length_map]
    have hget' : (fs.map Prod.fst)[i] = (fs.map Prod.fst)[k] := by
      rw [List.getElem_map, List.getElem_map, ← hname', hname]
    exact hnodup.getElem_inj_iff.mp hget'
  subst hik
  exact hfirst

end Holds

end DistributedAscii.FileSystem
