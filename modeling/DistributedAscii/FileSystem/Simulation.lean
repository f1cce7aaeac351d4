import DistributedAscii.FileSystem.Directory

/-!
# FileSystem — `writeFile` on a layout

`Layout.write` is `writeFile` one level up, and `writeMounted_toBytes` says
that the code computes it: the disk a call leaves is again the disk of a
layout. The one disk outside is a full directory without a data block (15
host files that could not be opened): there the slot loop reads past the
end of the file.

The directory is never reported full. Behind slot 14 the loop reads byte
271 as a block number and the entry lands on bytes 255 to 271: the free
counter and the front of block 1 (`overrun`).
-/

namespace DistributedAscii.FileSystem

open Lib.ByteFile

namespace Layout

/-- The entry that `allocateInDirectory` writes behind a full directory. -/
def overrunBlock (name : CString) (b : BlockNo) (hle : name.length ≤ 16) (blk : Block) :
    Block where
  data := (padTo 16 name.bytes).drop 1 ++ [b.val] ++ blk.data.drop 16
  link := blk.link
  size_data := by
    have h1 : name.bytes.length ≤ 16 := hle
    have h2 := blk.size_data
    have h3 := length_padTo h1
    simp only [List.length_append, List.length_drop, List.length_singleton]
    omega

theorem head_name_ne {name : CString} (hpos : 0 < name.length) :
    name.bytes.head (List.ne_nil_of_length_pos hpos) ≠ 0 := by
  intro h0
  exact name.noNul (h0 ▸ List.head_mem _)

/-- The free counter becomes the first character of the name. -/
def overrun (L : Layout) (name : CString) (b : BlockNo) (hpos : 0 < name.length)
    (hle : name.length ≤ 16) : Layout :=
  { L with
    counter := name.bytes.head (List.ne_nil_of_length_pos hpos)
    counter_ne := head_name_ne hpos
    blocks := L.blocks.modify 0 (overrunBlock name b hle)
    blocks_le := by rw [List.length_modify]; exact L.blocks_le }

/-- `allocateInDirectory`, once it has its block. -/
def enter (L : Layout) (name : CString) (b : BlockNo) (hpos : 0 < name.length)
    (hle : name.length ≤ 16) : Layout :=
  if h : L.entries.length < 15 then L.addEntry ⟨name, b, hpos, hle⟩ h
  else L.overrun name b hpos hle

/-- `writeFile` of a name with what its host file holds. -/
def write (L : Layout) (name : CString) (content : Option Bytes) : UInt8 × Layout :=
  if h : (0 < name.length ∧ name.length ≤ 16) ∧ L.find name = none then
    let L₁ := L.alloc.2.enter name L.alloc.1 h.1.1 h.1.2
    match content with
    | none => (exitFailure, L₁)
    | some content => store content 255 0 L.alloc.1 L₁
  else (exitFailure, L)

variable (L : Layout)

/-- A call that fails on its name: too long, empty, or found. -/
theorem write_rejected {name : CString} {content : Option Bytes}
    (h : ¬ ((0 < name.length ∧ name.length ≤ 16) ∧ L.find name = none)) :
    L.write name content = (exitFailure, L) := by
  rw [write, dif_neg h]

theorem write_none {name : CString} (hpos : 0 < name.length) (hle : name.length ≤ 16)
    (hfind : L.find name = none) :
    L.write name none = (exitFailure, L.alloc.2.enter name L.alloc.1 hpos hle) := by
  rw [write, dif_pos ⟨⟨hpos, hle⟩, hfind⟩]

theorem write_some {name : CString} (hpos : 0 < name.length) (hle : name.length ≤ 16)
    (hfind : L.find name = none) (content : Bytes) :
    L.write name (some content)
      = store content 255 0 L.alloc.1 (L.alloc.2.enter name L.alloc.1 hpos hle) := by
  rw [write, dif_pos ⟨⟨hpos, hle⟩, hfind⟩]

theorem entries_alloc : L.alloc.2.entries = L.entries := by
  cases hf : L.freeIndex with
  | some i => rw [alloc_of_free L hf, claim]
  | none =>
      by_cases hc : L.counter = 255
      · rw [alloc_of_exhausted L hf hc]
      · rw [alloc_of_counter L hf hc, bump]

/-! ## `allocateInDirectory` -/

/-- Filling the slot behind the entries. -/
theorem fwrite_addEntry (h : L.entries.length < 15) (e : Entry) :
    fwrite (fwrite L.toBytes (17 * (L.entries.length + 1) - 1) [e.firstBlock.val])
        (17 * (L.entries.length + 1) - 17) (padTo 16 e.name.bytes)
      = (L.addEntry e h).toBytes := by
  obtain ⟨front, back, hlen, hsplit, heq⟩ := L.toBytes_free (Nat.le_refl _) h
  obtain ⟨hfront, hback⟩ := heq rfl
  have hname : (padTo 16 e.name.bytes).length = 16 := length_padTo e.name_le
  have hfirst := writeAt_middle (0 : UInt8) (front ++ List.replicate 16 0) (List.replicate 1 0)
    back [e.firstBlock.val] rfl
  have hsecond := writeAt_middle (0 : UInt8) front (List.replicate 16 0)
    ([e.firstBlock.val] ++ back) (padTo 16 e.name.bytes) (by rw [hname, List.length_replicate])
  rw [List.length_append, List.length_replicate, hlen] at hfirst
  rw [hlen] at hsecond
  rw [fwrite, fwrite, hsplit, show (17 : Nat) = 16 + 1 from rfl,
    ← List.replicate_append_replicate,
    show (16 + 1) * (L.entries.length + 1) - 1 = 17 * L.entries.length + 16 by omega,
    show (16 + 1) * (L.entries.length + 1) - (16 + 1) = 17 * L.entries.length by omega,
    show front ++ (List.replicate 16 (0 : UInt8) ++ List.replicate 1 0) ++ back
      = front ++ List.replicate 16 0 ++ List.replicate 1 0 ++ back by
        simp only [List.append_assoc],
    hfirst,
    show front ++ List.replicate 16 (0 : UInt8) ++ [e.firstBlock.val] ++ back
      = front ++ List.replicate 16 0 ++ ([e.firstBlock.val] ++ back) by
        simp only [List.append_assoc],
    hsecond, hfront, hback]
  simp only [toBytes, directory, slots, addEntry, List.flatMap_append, List.flatMap_cons,
    List.flatMap_nil, Entry.toBytes, List.length_append, List.length_singleton,
    List.append_assoc, List.append_nil]

/-- Overrunning a full directory. -/
theorem fwrite_overrun (h15 : L.entries.length = 15) (hblocks : L.blocks ≠ [])
    (name : CString) (b : BlockNo) (hpos : 0 < name.length) (hle : name.length ≤ 16) :
    fwrite (fwrite L.toBytes (272 - 1) [b.val]) (272 - 17) (padTo 16 name.bytes)
      = (L.overrun name b hpos hle).toBytes := by
  obtain ⟨blk, rest, hb⟩ := List.exists_cons_of_ne_nil hblocks
  have hname : (padTo 16 name.bytes).length = 16 := length_padTo hle
  have hdata := blk.size_data
  have hslots : L.slots.length = 255 := by rw [length_slots, h15]
  have hpad : padTo 16 name.bytes
      = [name.bytes.head (List.ne_nil_of_length_pos hpos)] ++ (padTo 16 name.bytes).drop 1 := by
    obtain ⟨c, cs, hc⟩ := List.exists_cons_of_ne_nil (List.ne_nil_of_length_pos hpos)
    simp only [hc, padTo, List.head_cons, List.cons_append, List.drop_succ_cons,
      List.drop_zero, List.nil_append]
  have hsplit : L.toBytes
      = L.slots ++ ([L.counter] ++ blk.data.take 15) ++ [blk.data[15]]
        ++ (blk.data.drop 16 ++ [blk.link] ++ rest.flatMap Block.toBytes) := by
    have hd : blk.data = blk.data.take 15 ++ [blk.data[15]] ++ blk.data.drop 16 := by
      rw [List.append_assoc, List.singleton_append, List.cons_getElem_drop_succ,
        List.take_append_drop]
    rw [toBytes, directory, h15, hb, List.flatMap_cons, Block.toBytes]
    conv_lhs => rw [hd]
    simp only [Nat.reduceMul, Nat.sub_self, List.replicate_zero,
      List.append_nil, List.append_assoc]
  have hfirst := writeAt_middle (0 : UInt8) (L.slots ++ ([L.counter] ++ blk.data.take 15))
    [blk.data[15]] (blk.data.drop 16 ++ [blk.link] ++ rest.flatMap Block.toBytes) [b.val] rfl
  have hsecond := writeAt_middle (0 : UInt8) L.slots ([L.counter] ++ blk.data.take 15)
    ([b.val] ++ (blk.data.drop 16 ++ [blk.link] ++ rest.flatMap Block.toBytes))
    (padTo 16 name.bytes) (by
      rw [hname, List.length_append, List.length_take, List.length_singleton]
      omega)
  have hfront : (L.slots ++ ([L.counter] ++ blk.data.take 15)).length = 272 - 1 := by
    simp only [List.length_append, List.length_take, List.length_singleton]
    omega
  rw [hfront] at hfirst
  rw [hslots, show 255 = 272 - 17 from rfl] at hsecond
  rw [fwrite, fwrite, hsplit, hfirst, List.append_assoc _ [b.val], hsecond]
  conv_lhs => rw [hpad]
  simp only [toBytes, directory, slots, overrun, overrunBlock, h15, hb, Block.toBytes,
    List.modify_zero_cons, List.flatMap_cons, Nat.reduceMul, Nat.sub_self,
    List.replicate_zero, List.append_nil, List.append_assoc]

theorem slotLoop_toBytes (h : L.entries.length < 15) :
    slotLoop L.toBytes slotOffsets { firstBlock := 1, pos := 0 }
      = { firstBlock := 0, pos := 17 * (L.entries.length + 1) } := by
  have hhit := slotLoop_hit L.le_length_toBytes (m := L.entries.length) (k := 0) (n := 16)
    (s := { firstBlock := 1, pos := 0 }) (by omega) (by omega)
    (by decide) (by rw [Nat.zero_add]; exact (L.slot_free (Nat.le_refl _) h).2)
    (fun j _ hj => L.slotFirst_entry_ne (by omega))
  rw [slotOffsets, List.range_eq_range', hhit, Nat.zero_add]

theorem slotLoop_toBytes_full (h15 : L.entries.length = 15) (hblocks : L.blocks ≠ []) :
    (slotLoop L.toBytes slotOffsets { firstBlock := 1, pos := 0 }).pos = 272 := by
  have hlen := List.length_pos_of_ne_nil hblocks
  rw [slotOffsets, List.range_eq_range']
  exact slotLoop_full (by rw [length_toBytes]; omega) (m := 15) (k := 0) rfl (by decide)
    (fun j _ hj => L.slotFirst_entry_ne (by omega))

/-- **The directory entry**: the code fills the slot of the layout, or
overruns the directory. -/
theorem allocateInDirectory_toBytes (h : L.entries.length < 15 ∨ L.blocks ≠ [])
    {name : CString} (hpos : 0 < name.length) (hle : name.length ≤ 16) :
    allocateInDirectory name L.toBytes
      = (L.alloc.1.val, (L.alloc.2.enter name L.alloc.1 hpos hle).toBytes) := by
  have hcheck : checkBlockAvaible L.toBytes = (L.alloc.1.val, L.alloc.2.toBytes) := by
    simpa using L.checkBlockAvaible_toBytes [] (by simp)
  rw [allocateInDirectory, hcheck]
  simp only
  by_cases h15 : L.entries.length < 15
  · have h15' : L.alloc.2.entries.length < 15 := by rw [entries_alloc]; exact h15
    rw [slotLoop_toBytes L h15, enter, dif_pos h15', ← fwrite_addEntry, entries_alloc]
  · -- no free slot: the loop has run on into block 1
    have hfull : L.entries.length = 15 := by
      have := L.entries_le
      omega
    have hblocks : L.blocks ≠ [] := h.resolve_left h15
    have h15' : ¬ L.alloc.2.entries.length < 15 := by rw [entries_alloc]; exact h15
    have hblocks' : L.alloc.2.blocks ≠ [] := by
      rw [← List.length_pos_iff_ne_nil, length_blocks_alloc, List.length_pos_iff_ne_nil]
      exact hblocks
    rw [slotLoop_toBytes_full L hfull hblocks, enter, dif_neg h15',
      ← fwrite_overrun _ (by rw [entries_alloc, hfull]) hblocks']

/-! ## `writeFile` -/

/-- **The code refines the layout.** -/
theorem writeMounted_toBytes (h : L.entries.length < 15 ∨ L.blocks ≠ [])
    (host : Host) (name path : CString) :
    writeMounted host name path L.toBytes
      = ((L.write name (host path)).1, (L.write name (host path)).2.toBytes) := by
  rw [writeMounted]
  by_cases hle : name.length ≤ 16
  · rw [if_neg (by omega)]
    by_cases hpos : 0 < name.length
    · rw [existFile_toBytes L hpos]
      cases hfind : L.find name with
      | some e =>
          rw [write_rejected L (by simp [hfind])]
          rfl
      | none =>
          have hnot : ¬ ((none : Option Entry).map (fun e => e.firstBlock.val)).isSome = true :=
            by simp
          rw [if_neg hnot, allocateInDirectory_toBytes L h hpos hle]
          simp only [allocateContent]
          cases hpath : host path with
          | none =>
              have hfail : (extractContent host (List.replicate 255 0) path 0).1
                  = exitFailure := by
                rw [extractContent, hpath]
              rw [if_pos hfail, write_none L hpos hle hfind]
          | some content =>
              have hok : (extractContent host (List.replicate 255 0) path 0).1
                  ≠ exitFailure := by
                rw [extractContent_some hpath]
                dsimp only
                split <;> decide
              rw [if_neg hok, contentLoop_toBytes hpath, write_some L hpos hle hfind]
    · -- the empty name is found before a slot is read
      have h0 : name.length = 0 := by omega
      rw [existFile_empty _ h0, write_rejected L (fun hc => hpos hc.1.1)]
      rfl
  · rw [if_pos (by omega), write_rejected L (fun hc => hle hc.1.2)]

end Layout

end DistributedAscii.FileSystem
