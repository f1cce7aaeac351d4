import DistributedAscii.FileSystem.Chains
import DistributedAscii.FileSystem.Exhaustion

/-!
# FileSystem — blocks that two files share

A call whose host file cannot be opened leaves an entry whose first block is
never written (`Lost`). A file that is written behind such entries leaves
their blocks as a hole of the disk file, and a hole looks free (`Hollow`):
the next allocation gives it away, to the next name, or to the file itself
if it takes a third block. Up to that point the chains are apart and no call
touches them.
-/

namespace DistributedAscii.FileSystem

open Lib.ByteFile Lib.Pointers Lib.Runs Layout

/-- The first block of every entry is in the disk file. -/
def Written (disk : Disk) : Prop :=
  ∀ k, k < 15 → slotFirst disk k ≠ 0 → (slotFirst disk k).toNat * 256 + 256 ≤ disk.length

instance (disk : Disk) : Decidable (Written disk) := by
  unfold Written
  infer_instance

/-- The call is rejected on its name, or no block of the disk file looks
free and, unless every first block is in the file, the host file cannot be
opened or takes at most two blocks. -/
def Settled (host : Host) (disk : Disk) (c : WriteCall) : Prop :=
  16 < c.name.length ∨ (existFile disk c.name).isSome
    ∨ scanFree disk (List.range' 1 254) = none
      ∧ (Written disk ∨ ∀ text ∈ host c.path, text.length < 510)

instance (host : Host) (disk : Disk) (c : WriteCall) : Decidable (Settled host disk c) := by
  unfold Settled
  infer_instance

/-- Complete files, and behind them entries whose first block has not been
written. -/
structure Lost (L : Layout) (fs lost : Files) : Prop extends Lists L (fs ++ lost) where
  blocks : L.blocks = allBlocks 1 fs
  empty : ∀ f ∈ lost, f.2 = []

/-- The block that the allocator takes next is the first one of an entry. -/
def Hollow (L : Layout) (fs : Files) : Prop :=
  ∃ k, k < fs.length ∧ L.freeIndex = some (total (fs.take k))

/-! ## One call -/

section Calls

variable {L : Layout} {fs lost : Files}

theorem laid_fresh : Laid fresh [] where
  toLists := holds_fresh.toLists
  places := fun _ hk => absurd hk (Nat.not_lt_zero _)

theorem lost_of_holds (h : Holds L fs) : Lost L fs [] where
  toLists := by
    rw [List.append_nil]
    exact h.toLists
  blocks := h.blocks
  empty := fun _ hf => absurd hf List.not_mem_nil

namespace Lost

theorem total_eq (h : Lost L fs lost) : total (fs ++ lost) = total fs + lost.length := by
  rw [total_append_files, total_empty h.empty]

theorem linked (h : Lost L fs lost) : ∀ blk ∈ L.blocks, blk.link ≠ 0 := by
  have hfit := h.total_le
  rw [h.blocks]
  exact allBlocks_link_ne (by rw [h.total_eq] at hfit; omega)

theorem length_blocks (h : Lost L fs lost) : L.blocks.length = total fs := by
  rw [h.blocks, length_allBlocks]

/-- Without entries that were lost the disk keeps its files. -/
theorem holds (h : Lost L fs []) : Holds L fs where
  toLists := by
    have hlists := h.toLists
    rwa [List.append_nil] at hlists
  blocks := h.blocks

theorem counter_ne_full (h : Lost L fs lost) (hfit : total (fs ++ lost) < 254) :
    L.counter ≠ 255 := by
  intro hc
  have hcount := h.counter
  rw [hc, show (255 : UInt8).toNat = 255 from rfl] at hcount
  omega

/-- A host file that cannot be opened: one more entry of this kind. -/
theorem abort (h : Lost L fs lost) {name : CString} (hpos : 0 < name.length)
    (hle : name.length ≤ 16) (h14 : (fs ++ lost).length < 14)
    (hnew : name ∉ (fs ++ lost).map Prod.fst) (hfit : total (fs ++ lost) < 254) :
    ∃ L', L.write name none = (exitFailure, L') ∧ Lost L' fs (lost ++ [(name, [])]) := by
  have hc := h.counter_ne_full hfit
  have hfind : L.find name = none := (h.find_eq_none_iff (by omega)).mpr hnew
  have h15 : (L.bump hc).entries.length < 15 := by
    rw [bump_entries, h.length_entries]
    omega
  refine ⟨_, write_none L hpos hle hfind, ?_⟩
  rw [alloc_counter h.linked hc]
  dsimp only
  rw [enter, dif_pos h15]
  refine ⟨⟨?_, ?_⟩, h.blocks, ?_⟩
  · rw [← List.append_assoc, firstBlocks_append, ← h.entries, ← h.counter]
    exact List.map_append
  · rw [addEntry_counter, bump_counter, toNat_one_add hc, h.counter, ← List.append_assoc,
      total_append, needed, List.length_nil, Nat.zero_div, Nat.zero_add, Nat.add_assoc]
  · intro f hf
    rcases List.mem_append.mp hf with hf | hf
    · exact h.empty f hf
    · rw [List.mem_singleton.mp hf]

end Lost

/-- **A file of at most two blocks behind a gap**: the allocator runs before
the gap is in the file, so it takes the counter. -/
theorem store_gap {text : Bytes} (hlen : text.length < 510) {b : BlockNo} {L : Layout}
    (hlinked : ∀ blk ∈ L.blocks, blk.link ≠ 0) (hgap : L.blocks.length ≤ b.index)
    (hcounter : L.counter.toNat = b.val.toNat + 1) (hfit : b.val.toNat + needed text ≤ 255) :
    ∃ L', store text 255 0 b L = (exitSuccess, L')
      ∧ L'.counter.toNat = b.val.toNat + needed text
      ∧ L'.blocks = L.blocks ++ List.replicate (b.index - L.blocks.length) Block.zero
        ++ fileBlocks b.val.toNat text := by
  have hdata := length_chunk text 0
  by_cases hshort : text.length < (0 + 1) * 255
  · have hn : needed text = 1 := by
      rw [needed]
      omega
    refine ⟨_, by rw [store, if_pos hshort], ?_, ?_⟩
    · rw [writeBlock_counter, hcounter, hn]
    · rw [writeBlock_blocks_gap L hgap, fileBlocks, hn]
      simp only [List.range_one, List.map_cons, List.map_nil, fileBlock, linkOf, if_pos hshort]
  · -- the second block is chosen while the gap is not in the file yet
    have hn : needed text = 2 := by
      rw [needed]
      omega
    have hc : L.counter ≠ 255 := by
      intro hc
      rw [hc, show (255 : UInt8).toNat = 255 from rfl] at hcounter
      omega
    have hlast : text.length < (1 + 1) * 255 := hlen
    have hlink : L.counter = linkOf b.val.toNat text 0 := by
      apply UInt8.toNat_inj.mp
      rw [hcounter, linkOf, if_neg hshort, UInt8.toNat_ofNat']
      omega
    have hnext : (BlockNo.ofCounter L.counter L.counter_ne hc).index
        = ((L.bump hc).writeBlock b (chunk text 0) hdata L.counter).blocks.length := by
      have hindex := BlockNo.toNat_eq b
      rw [length_blocks_writeBlock, bump_blocks, BlockNo.index]
      show L.counter.toNat - 1 = _
      omega
    have hstore : store text 255 0 b L = (exitSuccess,
        ((L.bump hc).writeBlock b (chunk text 0) hdata L.counter).writeBlock
          (.ofCounter L.counter L.counter_ne hc) (chunk text 1) (length_chunk text 1) 255) := by
      rw [store_more hshort, extend, alloc_counter hlinked hc, store, if_pos hlast]
      rfl
    refine ⟨_, hstore, ?_, ?_⟩
    · rw [writeBlock_counter, writeBlock_counter, bump_counter, toNat_one_add hc, hcounter, hn]
    · rw [writeBlock_blocks_end _ hnext, writeBlock_blocks_gap (L.bump hc) hgap, bump_blocks,
        hlink, fileBlocks, hn, List.append_assoc]
      simp only [List.range_succ, List.range_zero, List.nil_append, List.map_append,
        List.map_cons, List.map_nil, fileBlock]
      rw [linkOf, linkOf, if_pos hlast]

/-- What a file behind the blocks that were asked for leaves of them. -/
theorem blockAt_append {L' : Layout} {k : Nat} {more : List Block}
    (hblocks : L'.blocks = L.blocks ++ List.replicate k Block.zero ++ more) {i : Nat}
    (hi : i < L.blocks.length + k) : blockAt L' i = blockAt L i := by
  rw [blockAt, blockAt, hblocks, List.getElem?_append_left
    (by rw [List.length_append, List.length_replicate]; exact hi)]
  by_cases hlt : i < L.blocks.length
  · rw [List.getElem?_append_left hlt]
  · rw [List.getElem?_append_right (by omega), List.getElem?_eq_none (by omega : _ ≤ i),
      List.getElem?_replicate]
    split <;> rfl

theorem blockAt_behind {L' : Layout} {k : Nat} {more : List Block}
    (hblocks : L'.blocks = L.blocks ++ List.replicate k Block.zero ++ more) (j : Nat) :
    blockAt L' (L.blocks.length + k + j) = (more[j]?).getD .zero := by
  have hlen : (L.blocks ++ List.replicate k Block.zero).length = L.blocks.length + k := by
    rw [List.length_append, List.length_replicate]
  rw [blockAt, hblocks, List.getElem?_append_right (by omega), hlen, Nat.add_sub_cancel_left]

/-- **A file that can be opened**, of at most two blocks if entries were
lost, goes behind all blocks that were asked for. -/
theorem Lost.store (h : Lost L fs lost) {name : CString} (hpos : 0 < name.length)
    (hle : name.length ≤ 16) (h14 : (fs ++ lost).length < 14)
    (hnew : name ∉ (fs ++ lost).map Prod.fst) {text : Bytes}
    (hfit : total (fs ++ lost) + needed text ≤ 254) (hlen : lost = [] ∨ text.length < 510) :
    ∃ L', L.write name (some text) = (exitSuccess, L')
      ∧ Lists L' (fs ++ lost ++ [(name, text)])
      ∧ L'.blocks = L.blocks ++ List.replicate lost.length Block.zero
        ++ fileBlocks (1 + total (fs ++ lost)) text := by
  rcases hlen with rfl | hlen
  · rw [List.append_nil] at h14 hnew hfit ⊢
    obtain ⟨L', hwrite, hL'⟩ := h.holds.write hpos hle h14 hnew hfit
    refine ⟨L', hwrite, hL'.toLists, ?_⟩
    rw [hL'.blocks, allBlocks_append, h.blocks, List.length_nil, List.replicate_zero,
      List.append_nil]
  · have hn := needed_pos text
    have hc := h.counter_ne_full (by omega)
    have hfind : L.find name = none := (h.find_eq_none_iff (by omega)).mpr hnew
    have h15 : (L.bump hc).entries.length < 15 := by
      rw [bump_entries, h.length_entries]
      omega
    have hindex : (BlockNo.ofCounter L.counter L.counter_ne hc).index = total (fs ++ lost) := by
      rw [BlockNo.index]
      show L.counter.toNat - 1 = _
      rw [h.counter, Nat.add_sub_cancel_left]
    obtain ⟨L', hrun, hcount, hblocks⟩ := store_gap hlen
      (b := .ofCounter L.counter L.counter_ne hc)
      (L := (L.bump hc).addEntry ⟨name, .ofCounter L.counter L.counter_ne hc, hpos, hle⟩ h15)
      h.linked
      (by rw [hindex, addEntry_blocks, bump_blocks, h.length_blocks, h.total_eq]; omega)
      (by rw [addEntry_counter, bump_counter, toNat_one_add hc]; rfl)
      (by show L.counter.toNat + _ ≤ _; rw [h.counter]; omega)
    have hentries := store_entries text 255 0 (.ofCounter L.counter L.counter_ne hc)
      ((L.bump hc).addEntry ⟨name, .ofCounter L.counter L.counter_ne hc, hpos, hle⟩ h15)
    rw [hrun] at hentries
    refine ⟨L', ?_, ⟨?_, ?_⟩, ?_⟩
    · rw [write_some L hpos hle hfind, alloc_counter h.linked hc]
      dsimp only
      rw [enter, dif_pos h15, hrun]
    · rw [hentries, firstBlocks_append, ← h.entries, ← h.counter]
      exact List.map_append
    · rw [hcount, total_append, ← Nat.add_assoc, ← h.counter]
      rfl
    · rw [hblocks, hindex, addEntry_blocks, bump_blocks, h.length_blocks, h.total_eq,
        Nat.add_sub_cancel_left, ← h.total_eq, ← h.counter]
      rfl

/-! ## The calls that touch no chain -/

/-- The gap looks free. -/
theorem freeIndex_gap {L' : Layout} (hlinked : ∀ blk ∈ L.blocks, blk.link ≠ 0) {k : Nat}
    (hk : k ≠ 0) {more : List Block}
    (hblocks : L'.blocks = L.blocks ++ List.replicate k Block.zero ++ more) :
    L'.freeIndex = some L.blocks.length := by
  obtain ⟨k, rfl⟩ := Nat.exists_eq_succ_of_ne_zero hk
  have hzero : decide (Block.zero.link = 0) = true := rfl
  have hfront : L.blocks.findIdx? (fun b => b.link = 0) = none := freeIndex_eq_none hlinked
  rw [freeIndex, hblocks, List.append_assoc, List.findIdx?_append, hfront, Option.none_or,
    List.replicate_succ, List.cons_append, List.findIdx?_cons, hzero, if_pos rfl,
    Option.map_some, Nat.zero_add]

/-- A host file that cannot be opened, behind any number of such files. -/
theorem Lost.abort_laid (h : Lost L fs lost) (hlaid : Laid L (fs ++ lost)) {name : CString}
    (hpos : 0 < name.length) (hle : name.length ≤ 16) (h14 : (fs ++ lost).length < 14)
    (hnew : name ∉ (fs ++ lost).map Prod.fst) (hfit : total (fs ++ lost) < 254) :
    ∃ L', L.write name none = (exitFailure, L') ∧ Lost L' fs (lost ++ [(name, [])])
      ∧ Laid L' (fs ++ lost ++ [(name, [])]) ∧ Untouched L.toBytes L'.toBytes := by
  obtain ⟨L', hwrite, hL'⟩ := h.abort hpos hle h14 hnew hfit
  have hsame : ∀ i < total (fs ++ lost), blockAt L' i = blockAt L i := by
    intro i _
    rw [blockAt, blockAt, hL'.blocks, h.blocks]
  have hend : (blockAt L' (total (fs ++ lost))).link = 0 := by
    have hpast : L'.blocks.length ≤ total (fs ++ lost) := by
      rw [hL'.length_blocks, h.total_eq]
      omega
    rw [blockAt, List.getElem?_eq_none hpast]
    rfl
  have hlists : Lists L' (fs ++ lost ++ [(name, [])]) := by
    rw [List.append_assoc]
    exact hL'.toLists
  exact ⟨L', hwrite, hL', hlaid.snoc hlists hsame (.inr hend), hlaid.untouched hsame⟩

/-- A host file that can be opened: without lost entries the disk goes on
keeping its files, else it has a hole now. -/
theorem Lost.store_laid (h : Lost L fs lost) (hlaid : Laid L (fs ++ lost)) {name : CString}
    (hpos : 0 < name.length) (hle : name.length ≤ 16) (h14 : (fs ++ lost).length < 14)
    (hnew : name ∉ (fs ++ lost).map Prod.fst) {text : Bytes}
    (hfit : total (fs ++ lost) + needed text ≤ 254) (hlen : lost = [] ∨ text.length < 510) :
    ∃ L', L.write name (some text) = (exitSuccess, L')
      ∧ (Lost L' (fs ++ lost ++ [(name, text)]) [] ∨ Hollow L' (fs ++ lost ++ [(name, text)]))
      ∧ Laid L' (fs ++ lost ++ [(name, text)]) ∧ Untouched L.toBytes L'.toBytes := by
  obtain ⟨L', hwrite, hlists, hblocks⟩ := h.store hpos hle h14 hnew hfit hlen
  have hsame : ∀ i < total (fs ++ lost), blockAt L' i = blockAt L i := by
    intro i hi
    rw [h.total_eq, ← h.length_blocks] at hi
    exact blockAt_append hblocks hi
  have hplace : ∀ j < needed text, blockAt L' (total (fs ++ lost) + j)
      = fileBlock (1 + total (fs ++ lost)) text j := by
    intro j hj
    have hbehind := blockAt_behind hblocks j
    rw [h.length_blocks, ← h.total_eq, fileBlocks, List.getElem?_map,
      List.getElem?_range hj] at hbehind
    exact hbehind
  refine ⟨L', hwrite, ?_, hlaid.snoc hlists hsame (.inl hplace), hlaid.untouched hsame⟩
  by_cases hnone : lost = []
  · subst hnone
    left
    refine ⟨by rwa [List.append_nil], ?_, fun _ hf => absurd hf List.not_mem_nil⟩
    rw [hblocks, h.blocks, List.append_nil, allBlocks_append, List.length_nil,
      List.replicate_zero, List.append_nil]
  · right
    refine ⟨fs.length, ?_, ?_⟩
    · rw [List.length_append, List.length_append, List.length_singleton]
      omega
    · rw [List.append_assoc, List.take_left, ← h.length_blocks]
      exact freeIndex_gap h.linked (Nat.ne_of_gt (List.length_pos_of_ne_nil hnone)) hblocks

/-! ## The calls that touch a chain -/

/-- A chain is touched where the first block of an entry looked free before
the call and does not afterwards. -/
theorem Laid.touched (h : Laid L fs) (h14 : fs.length ≤ 14) {k : Nat} (hk : k < fs.length)
    (hfree : (blockAt L (total (fs.take k))).link = 0) {L' : Layout}
    (hnext : L'.next (total (fs.take k) + 1) ≠ some 0) : ¬ Untouched L.toBytes L'.toBytes := by
  intro hsame
  have hne := L.slotFirst_entry_ne (show k < L.entries.length by rwa [h.length_entries])
  have hfirst := (h.slotFirst_eq (by omega) hne).2
  have hread := hsame k _ (by omega) ⟨hne, .here⟩
  rw [hfirst, Nat.add_comm, readBlock_succ, readBlock_succ] at hread
  have hlink : L'.link (total (fs.take k) + 1) = 0 := by
    rw [link_succ, ← Block.getD_toBytes, hread, Block.getD_toBytes, hfree]
  rw [next, if_neg (Nat.succ_ne_zero _), hlink] at hnext
  exact hnext rfl

/-- **Behind a hole** every new name takes the first block of an entry. -/
theorem Hollow.touched (h : Hollow L fs) (hlaid : Laid L fs) (h14 : fs.length ≤ 14)
    {name : CString} (hpos : 0 < name.length) (hle : name.length ≤ 16)
    (hfind : L.find name = none) (content : Option Bytes) :
    ¬ Untouched L.toBytes (L.write name content).2.toBytes := by
  obtain ⟨k, hk, hfree⟩ := h
  obtain ⟨hlt, hzero, -⟩ := List.findIdx?_eq_some_iff_getElem.mp hfree
  have hlink : (blockAt L (total (fs.take k))).link = 0 := by
    rw [blockAt, List.getElem?_eq_getElem hlt]
    simpa using hzero
  have henter : (L.alloc.2.enter name L.alloc.1 hpos hle).next (total (fs.take k) + 1)
      ≠ some 0 := by
    rw [next_enter, alloc_of_free L hfree, next_claim L hlt, Function.update_self]
    simp
  apply hlaid.touched h14 hk hlink
  cases content with
  | none =>
      rw [write_none L hpos hle hfind]
      exact henter
  | some text =>
      rw [write_some L hpos hle hfind]
      exact store_next_ne henter

/-- **A file of three blocks** behind lost entries makes the hole and takes
its third block from it. -/
theorem Lost.touched (h : Lost L fs lost) (hlaid : Laid L (fs ++ lost)) (hne : lost ≠ [])
    (h14 : (fs ++ lost).length < 14) (hfit : total (fs ++ lost) < 254) {name : CString}
    (hpos : 0 < name.length) (hle : name.length ≤ 16) (hfind : L.find name = none)
    {text : Bytes} (hlen : 510 ≤ text.length) :
    ¬ Untouched L.toBytes (L.write name (some text)).2.toBytes := by
  have hc := h.counter_ne_full hfit
  have hlost := List.length_pos_of_ne_nil hne
  have htake : total ((fs ++ lost).take fs.length) = L.blocks.length := by
    rw [List.take_left, h.length_blocks]
  have hlink : (blockAt L (total ((fs ++ lost).take fs.length))).link = 0 := by
    rw [htake, blockAt, List.getElem?_eq_none (Nat.le_refl _)]
    rfl
  have h15 : (L.bump hc).entries.length < 15 := by
    rw [bump_entries, h.length_entries]
    omega
  apply hlaid.touched (Nat.le_of_lt h14)
    (by rw [List.length_append]; exact Nat.lt_add_of_pos_right hlost) hlink
  rw [htake, write_some L hpos hle hfind, alloc_counter h.linked hc]
  dsimp only
  rw [enter, dif_pos h15]
  generalize hb : BlockNo.ofCounter L.counter L.counter_ne hc = b
  have hindex : b.index = L.blocks.length + lost.length := by
    rw [← hb, BlockNo.index]
    show L.counter.toNat - 1 = _
    rw [h.counter, Nat.add_sub_cancel_left, h.total_eq, h.length_blocks]
  generalize hL₁ : (L.bump hc).addEntry ⟨name, b, hpos, hle⟩ h15 = L₁
  have hblocks₁ : L₁.blocks = L.blocks := by
    rw [← hL₁]
    rfl
  have hdata := length_chunk text 0
  have halloc : L₁.alloc.2.blocks = L.blocks := by
    rw [(alloc_cases (by rw [hblocks₁]; exact h.linked)).2, hblocks₁]
  -- behind the first block of the file the hole is on the disk
  have hblocks₂ : (L₁.extend b (chunk text 0) hdata).2.blocks
      = L.blocks ++ List.replicate lost.length Block.zero
        ++ [⟨chunk text 0, L₁.alloc.1.val, hdata⟩] := by
    rw [extend, writeBlock_blocks_gap _ (by rw [halloc, hindex]; omega), halloc, hindex,
      Nat.add_sub_cancel_left]
  have hfree := freeIndex_gap h.linked (Nat.ne_of_gt hlost) hblocks₂
  rw [store_more (by omega), store_more (by omega)]
  exact store_next_ne (extend_next_ne hfree _ _)

end Calls

/-! ## Runs -/

/-- The disks that settled calls leave. -/
structure Orderly (host : Host) (calls : List WriteCall) (L : Layout) : Prop where
  laid : Laid L (stored host calls)
  kind : (∃ fs lost, stored host calls = fs ++ lost ∧ Lost L fs lost)
    ∨ Hollow L (stored host calls)

section Runs

variable {L : Layout} {fs : Files} {host : Host} {calls front : List WriteCall} {c : WriteCall}

/-- The lookup on the disk and the list of files agree. -/
theorem Lists.existFile_isSome_iff (h : Lists L fs) (h14 : fs.length ≤ 14) {name : CString}
    (hpos : 0 < name.length) :
    (existFile L.toBytes name).isSome ↔ name ∈ fs.map Prod.fst := by
  rw [existFile_toBytes L hpos, Option.isSome_map, Option.isSome_iff_ne_none, Ne,
    h.find_eq_none_iff h14, not_not]

theorem scanFree_eq_none_iff (L : Layout) :
    scanFree L.toBytes (List.range' 1 254) = none ↔ L.freeIndex = none := by
  have hscan := L.scanFree_toBytes (show ([] : Bytes).length < 256 by decide)
  rw [List.append_nil] at hscan
  rw [hscan, Option.map_eq_none_iff]

/-- The first blocks are all in the file where no entry was lost. -/
theorem Lost.written_iff {lost : Files} (h : Lost L fs lost) (h14 : (fs ++ lost).length ≤ 14) :
    Written L.toBytes ↔ lost = [] := by
  constructor
  · intro hall
    by_contra hne
    have hlt : fs.length < L.entries.length := by
      rw [h.length_entries, List.length_append]
      exact Nat.lt_add_of_pos_right (List.length_pos_of_ne_nil hne)
    rw [← h.length_entries] at h14
    have hused := L.slotFirst_entry_ne hlt
    have hle := hall fs.length (by omega) hused
    have hfirst := (h.slotFirst_eq (by omega) hused).2
    rw [List.take_left] at hfirst
    rw [hfirst, length_toBytes, h.length_blocks] at hle
    omega
  · rintro rfl k hk hused
    obtain ⟨hk', hfirst⟩ := h.holds.slotFirst_eq hk hused
    have hsucc := total_take_succ hk'
    have htotal := total_take_le fs (k + 1)
    have hn := needed_pos fs[k].2
    rw [hfirst, length_toBytes, h.length_blocks]
    omega

/-- **A settled call** leaves the chains as they are and an orderly disk. -/
theorem Orderly.step (h : Orderly host front L) (hload : Load host calls)
    (hfront : front ++ [c] <+: calls) (hsettled : Settled host L.toBytes c) :
    ∃ L', (writeMounted host c.name c.path L.toBytes).2 = L'.toBytes
      ∧ Orderly host (front ++ [c]) L' ∧ Untouched L.toBytes L'.toBytes := by
  have hbefore : front <+: calls := (List.prefix_append ..).trans hfront
  have h14 := hload.length_stored hbefore
  have hstored : stored host (front ++ [c]) = put host (stored host front) c :=
    stored_append front [c]
  by_cases hrej : 16 < c.name.length ∨ c.name ∈ (stored host front).map Prod.fst
  · -- rejected on its name
    refine ⟨L, ?_, ?_, fun _ _ _ _ => rfl⟩
    · rw [h.laid.writeMounted_rejected h14 hrej]
    · have hsame : stored host (front ++ [c]) = stored host front := by
        rw [hstored, put_rejected hrej]
      exact ⟨hsame ▸ h.laid, hsame ▸ h.kind⟩
  · have hle : c.name.length ≤ 16 := by
      by_contra hc
      exact hrej (.inl (by omega))
    have hnew : c.name ∉ (stored host front).map Prod.fst := fun hc => hrej (.inr hc)
    have hpos := (hload.names c (hfront.subset (by simp)) hle).1
    have hlen := hload.length_stored hfront
    have htotal := hload.total_stored hfront
    rw [put_new hle hnew] at hstored
    rw [hstored, List.length_append, List.length_singleton] at hlen
    rw [hstored, total_append] at htotal
    have hn : 0 < needed (c.name, (host c.path).getD []).2 := needed_pos _
    have h15 : L.entries.length < 15 := by
      rw [h.laid.length_entries]
      omega
    have hthere : ¬ (existFile L.toBytes c.name).isSome := fun hc =>
      hnew ((h.laid.existFile_isSome_iff h14 hpos).mp hc)
    obtain ⟨hscan, hfile⟩ := (hsettled.resolve_left (by omega)).resolve_left hthere
    rcases h.kind with ⟨fs, lost, hfs, hlost⟩ | ⟨k, _, hfree⟩
    · -- no hole yet: one more lost entry, or a file behind the blocks asked for
      have hlaid := h.laid
      rw [hfs] at hlen hnew htotal hlaid hstored
      have hlong : (fs ++ lost).length < 14 := by omega
      cases hpath : host c.path with
      | none =>
          rw [hpath] at hstored
          obtain ⟨L', hwrite, hL', hlaid', hsame⟩ :=
            hlost.abort_laid hlaid hpos hle hlong hnew (by omega)
          refine ⟨L', ?_, ⟨?_, .inl ⟨fs, lost ++ [(c.name, [])], ?_, hL'⟩⟩, hsame⟩
          · rw [writeMounted_toBytes L (.inl h15), hpath, hwrite]
          · rw [hstored]
            exact hlaid'
          · rw [hstored, List.append_assoc]
            rfl
      | some text =>
          simp only [hpath, Option.getD_some] at htotal hstored
          have hroom : lost = [] ∨ text.length < 510 := by
            rw [hlost.written_iff (Nat.le_of_lt hlong), hpath] at hfile
            exact hfile.imp_right fun hall => hall text rfl
          obtain ⟨L', hwrite, hkind, hlaid', hsame⟩ :=
            hlost.store_laid hlaid hpos hle hlong hnew htotal hroom
          refine ⟨L', ?_, ⟨?_, ?_⟩, hsame⟩
          · rw [writeMounted_toBytes L (.inl h15), hpath, hwrite]
          · rw [hstored]
            exact hlaid'
          · rw [hstored]
            refine hkind.imp_left fun hkept => ⟨_, [], ?_, hkept⟩
            rw [List.append_nil]
    · -- a new name behind a hole is what the condition excludes
      rw [scanFree_eq_none_iff, hfree] at hscan
      cases hscan

/-- The condition is exact: a call that leaves the chains alone is settled. -/
theorem Orderly.settled (h : Orderly host front L) (hload : Load host calls)
    (hfront : front ++ [c] <+: calls)
    (hsame : Untouched L.toBytes (writeMounted host c.name c.path L.toBytes).2) :
    Settled host L.toBytes c := by
  have hbefore : front <+: calls := (List.prefix_append ..).trans hfront
  have h14 := hload.length_stored hbefore
  by_cases hlong : 16 < c.name.length
  · exact .inl hlong
  have hle : c.name.length ≤ 16 := by omega
  have hpos := (hload.names c (hfront.subset (by simp)) hle).1
  by_cases hmem : c.name ∈ (stored host front).map Prod.fst
  · exact .inr (.inl ((h.laid.existFile_isSome_iff h14 hpos).mpr hmem))
  have hfind : L.find c.name = none := (h.laid.find_eq_none_iff h14).mpr hmem
  have h15 : L.entries.length < 15 := by
    rw [h.laid.length_entries]
    omega
  have hstored : stored host (front ++ [c])
      = stored host front ++ [(c.name, (host c.path).getD [])] := by
    rw [stored_append, List.foldl_cons, List.foldl_nil, put_new hle hmem]
  have hlen := hload.length_stored hfront
  have htotal := hload.total_stored hfront
  rw [hstored, List.length_append, List.length_singleton] at hlen
  rw [hstored, total_append] at htotal
  have hn : 0 < needed (c.name, (host c.path).getD []).2 := needed_pos _
  rw [writeMounted_toBytes L (.inl h15)] at hsame
  rcases h.kind with ⟨fs, lost, hfs, hlost⟩ | hhollow
  · have hlaid := h.laid
    rw [hfs] at hlen htotal hlaid
    refine .inr (.inr ⟨?_, ?_⟩)
    · rw [scanFree_eq_none_iff]
      exact freeIndex_eq_none hlost.linked
    · rw [hlost.written_iff (by omega)]
      by_contra hnot
      rw [not_or, not_forall] at hnot
      obtain ⟨hne, text, hnot⟩ := hnot
      rw [not_forall] at hnot
      obtain ⟨htext, hlong⟩ := hnot
      have hpath : host c.path = some text := htext
      rw [hpath] at hsame
      exact hlost.touched hlaid hne (by omega) (by omega) hpos hle hfind (by omega) hsame
  · exact absurd hsame (hhollow.touched h.laid h14 hpos hle hfind _)

/-- Every disk on the way is orderly, if the next call is always settled. -/
theorem orderly_run (hload : Load host calls)
    (hsettled : ∀ front c L, front ++ [c] <+: calls → runWrites host front = L.toBytes →
      Orderly host front L → Settled host L.toBytes c) (hfront : front <+: calls) :
    ∃ L, runWrites host front = L.toBytes ∧ Orderly host front L := by
  refine prefix_induction (P := fun front =>
    ∃ L, runWrites host front = L.toBytes ∧ Orderly host front L) ?_ ?_ front hfront
  · exact ⟨.fresh, toBytes_fresh.symm, laid_fresh, .inl ⟨[], [], rfl, lost_of_holds holds_fresh⟩⟩
  · intro front c hfront ⟨L, hdisk, hL⟩
    obtain ⟨L', hwrite, hL', _⟩ :=
      hL.step hload hfront (hsettled front c L hfront hdisk hL)
    refine ⟨L', ?_, hL'⟩
    rw [runWrites_append, hdisk, hwrite]

end Runs

/-- **When the files stay apart**: exactly when every call that is not
rejected on its name finds no block that looks free and, where an entry has
a first block that was not written, asks for at most two blocks. -/
theorem separate_iff_settled {host : Host} {calls : List WriteCall} (h : Load host calls) :
    Separate host calls ↔
      ∀ front c, front ++ [c] <+: calls → Settled host (runWrites host front) c := by
  constructor
  · intro hsep front c hfront
    have hnext : ∀ front c L, front ++ [c] <+: calls → runWrites host front = L.toBytes →
        Orderly host front L → Settled host L.toBytes c := by
      intro front c L hfront hdisk hL
      have hsame := (hsep front ((List.prefix_append ..).trans hfront)).2 c hfront
      rw [runWrites_append, hdisk] at hsame
      exact hL.settled h hfront hsame
    obtain ⟨L, hdisk, hL⟩ := orderly_run h hnext ((List.prefix_append ..).trans hfront)
    rw [hdisk]
    exact hnext front c L hfront hdisk hL
  · intro hall front hfront
    have hnext : ∀ front c L, front ++ [c] <+: calls → runWrites host front = L.toBytes →
        Orderly host front L → Settled host L.toBytes c := by
      intro front c L hfront hdisk _
      rw [← hdisk]
      exact hall front c hfront
    obtain ⟨L, hdisk, hL⟩ := orderly_run h hnext hfront
    rw [hdisk]
    refine ⟨hL.laid.apart, fun c hc => ?_⟩
    obtain ⟨L', hwrite, _, hsame⟩ := hL.step h hc (hnext front c L hc hdisk hL)
    rw [runWrites_append, hdisk, hwrite]
    exact hsame

/-- A host with a drawing of three blocks, a small one, and no other file. -/
def threeFiles : Host := fun path =>
  if path.length = 0 then none
  else if path.length = 1 then some (bytes "=^.^=")
  else some (List.replicate 600 65)

/-- A large drawing, its name again, a name that is too long, a file that
is not there and a small drawing. -/
def mixedCalls : List WriteCall :=
  [⟨.ofBytes (bytes "oso"), .ofBytes (bytes "oso.txt")⟩,
    ⟨.ofBytes (bytes "oso"), .ofBytes (bytes "g")⟩,
    ⟨.ofBytes (bytes "tenedorcucharacuchillo"), .ofBytes (bytes "g")⟩,
    ⟨.ofBytes (bytes "perro"), .ofBytes []⟩,
    ⟨.ofBytes (bytes "gato"), .ofBytes (bytes "g")⟩]

/-- They stay apart. -/
theorem separate_gato : Separate threeFiles mixedCalls := by
  have hload : Load threeFiles mixedCalls :=
    ⟨by decide, by decide, by decide +kernel⟩
  have hsettled : ∀ i < mixedCalls.length, ∀ c ∈ mixedCalls[i]?,
      Settled threeFiles (runWrites threeFiles (mixedCalls.take i)) c := by
    decide +kernel
  refine (separate_iff_settled hload).mpr fun front c hfront => ?_
  exact forall_snoc_of_getElem?
    (P := fun front c => Settled threeFiles (runWrites threeFiles front) c) hsettled hfront

/-- A file that is not there, then two that are. -/
def lostThenFound : List WriteCall :=
  [⟨.ofBytes (bytes "a"), .ofBytes []⟩, ⟨.ofBytes (bytes "b"), .ofBytes (bytes "g")⟩,
    ⟨.ofBytes (bytes "c"), .ofBytes (bytes "g")⟩]

/-- The disk they leave: the third file is written to the first block of the
entry that was lost. -/
theorem runWrites_lostThenFound :
    ∃ L : Layout, runWrites threeFiles lostThenFound = L.toBytes
      ∧ L.entries.map (fun e => e.firstBlock.val) = [1, 2, 1] := by
  refine ⟨(((fresh.write (.ofBytes (bytes "a")) none).2.write (.ofBytes (bytes "b"))
    (some (bytes "=^.^="))).2.write (.ofBytes (bytes "c")) (some (bytes "=^.^="))).2, ?_,
    by decide +kernel⟩
  have hnone : threeFiles (.ofBytes []) = none := rfl
  have hsome : threeFiles (.ofBytes (bytes "g")) = some (bytes "=^.^=") := rfl
  rw [show lostThenFound = [] ++ [⟨.ofBytes (bytes "a"), .ofBytes []⟩]
      ++ [⟨.ofBytes (bytes "b"), .ofBytes (bytes "g")⟩]
      ++ [⟨.ofBytes (bytes "c"), .ofBytes (bytes "g")⟩] from rfl,
    runWrites_append, runWrites_append, runWrites_append,
    show runWrites threeFiles [] = fresh.toBytes from toBytes_fresh.symm,
    writeMounted_toBytes fresh (.inl (by decide)), hnone,
    writeMounted_toBytes _ (.inl (by decide)), hsome,
    writeMounted_toBytes _ (.inl (by decide +kernel)), hsome]

/-- The second call leaves block 1 as a hole, the third is given it: block 1
belongs to two entries. -/
theorem chains_not_separate :
    ¬ ∀ (host : Host) (calls : List WriteCall), Load host calls → Separate host calls := by
  intro h
  have hload : Load threeFiles lostThenFound := ⟨by decide, by decide, by decide +kernel⟩
  obtain ⟨L, hdisk, hfirsts⟩ := runWrites_lostThenFound
  have hapart := (h _ _ hload _ List.prefix_rfl).1
  have hslot : ∀ (k : Nat) (b : UInt8), [1, 2, 1][k]? = some b → slotFirst L.toBytes k = b := by
    intro k b hb
    rw [← hfirsts, List.getElem?_map, Option.map_eq_some_iff] at hb
    obtain ⟨e, he, rfl⟩ := hb
    obtain ⟨hk, rfl⟩ := List.getElem?_eq_some_iff.mp he
    exact (L.slot_entry hk).2
  rw [hdisk] at hapart
  have hone : OnChain L.toBytes 0 1 := by
    rw [OnChain, hslot 0 1 rfl]
    exact ⟨by decide, .here⟩
  have hthree : OnChain L.toBytes 2 1 := by
    rw [OnChain, hslot 2 1 rfl]
    exact ⟨by decide, .here⟩
  exact hapart 0 2 1 (by decide) (by decide) (by decide) hone hthree

end DistributedAscii.FileSystem
