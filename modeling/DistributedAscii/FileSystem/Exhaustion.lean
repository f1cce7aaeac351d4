import DistributedAscii.FileSystem.Endings

/-!
# FileSystem — running out of blocks

While no link byte is 0 the allocator hands out the counter, and behind the
last counter it answers `EXIT_FAILURE`, which is the number of block 1. A
writer that takes it for a block number goes on in block 1: it points the
last block at block 1, and the next turn points block 1 at itself. A text
too long for the 255 blocks of a call always gets that far, so it leaves
the chain of block 1 without an end (`store_loops`).
-/

namespace DistributedAscii.FileSystem

open Lib.ByteFile Lib.Pointers

namespace Layout

/-- Nothing looks free, and the counter is not ahead of the disk. -/
structure Compact (L : Layout) : Prop where
  linked : ∀ blk ∈ L.blocks, blk.link ≠ 0
  counter : L.counter = 255 ∨ L.counter.toNat ≤ L.blocks.length + 1

/-- The same in front of the write of block `b`. -/
structure Solid (b : BlockNo) (L : Layout) : Prop where
  linked : ∀ blk ∈ L.blocks, blk.link ≠ 0
  room : b.index ≤ L.blocks.length
  counter : L.counter = 255 ∨ L.counter.toNat ≤ max L.blocks.length (b.index + 1) + 1

theorem compact_fresh : Compact fresh where
  linked := fun _ h => absurd h List.not_mem_nil
  counter := .inr (by decide)

variable {L : Layout}

/-! ## One block -/

/-- A block in the middle of a text: the number of the next block, and the
block with it as its link byte. -/
def extend (L : Layout) (b : BlockNo) (data : Bytes) (h : data.length = 255) :
    BlockNo × Layout :=
  (L.alloc.1, L.alloc.2.writeBlock b data h L.alloc.1.val)

/-- The writer as long as the text goes on. -/
theorem store_more {content : Bytes} {index : Nat}
    (hmore : ¬ content.length < (index + 1) * 255) (fuel : Nat) (b : BlockNo) (L : Layout) :
    store content (fuel + 1) index b L
      = store content fuel (index + 1)
          (L.extend b (chunk content index) (length_chunk content index)).1
          (L.extend b (chunk content index) (length_chunk content index)).2 := by
  rw [store]
  exact if_neg hmore

theorem val_ne_zero (b : BlockNo) : b.val ≠ 0 := by
  intro h0
  have h := b.pos
  rw [h0] at h
  exact absurd h (by decide)

theorem val_ne_255 (b : BlockNo) : b.val ≠ 255 := by
  intro h255
  have h := b.le
  rw [h255] at h
  exact absurd h (by decide)

/-- An edit of one block. -/
theorem linked_modify {blocks : List Block} {i : Nat} {f : Block → Block}
    (hblocks : ∀ blk ∈ blocks, blk.link ≠ 0) (hf : ∀ blk ∈ blocks, (f blk).link ≠ 0) :
    ∀ blk ∈ blocks.modify i f, blk.link ≠ 0 := by
  intro blk hblk
  obtain ⟨j, hj, rfl⟩ := List.getElem_of_mem hblk
  rw [List.getElem_modify]
  split
  · exact hf _ (List.getElem_mem _)
  · exact hblocks _ (List.getElem_mem _)

theorem linked_writeBlock (hlinked : ∀ blk ∈ L.blocks, blk.link ≠ 0) {b : BlockNo}
    (hroom : b.index ≤ L.blocks.length) {data : Bytes} (h : data.length = 255) {v : UInt8}
    (hv : v ≠ 0) : ∀ blk ∈ (L.writeBlock b data h v).blocks, blk.link ≠ 0 := by
  intro blk hblk
  by_cases hlt : b.index < L.blocks.length
  · rw [writeBlock, dif_pos hlt] at hblk
    rcases List.mem_or_eq_of_mem_set hblk with hblk | rfl
    · exact hlinked blk hblk
    · exact hv
  · rw [writeBlock_blocks_end L (by omega)] at hblk
    rcases List.mem_append.mp hblk with hblk | hblk
    · exact hlinked blk hblk
    · rw [List.mem_singleton.mp hblk]
      exact hv

theorem freeIndex_eq_none (hlinked : ∀ blk ∈ L.blocks, blk.link ≠ 0) : L.freeIndex = none := by
  rw [freeIndex, List.findIdx?_eq_none_iff]
  intro blk hblk
  simpa using hlinked blk hblk

/-- What the allocator does if nothing looks free: the counter, or block 1. -/
theorem alloc_cases (hlinked : ∀ blk ∈ L.blocks, blk.link ≠ 0) :
    (L.counter ≠ 255 ∧ L.alloc.1.val = L.counter ∧ L.alloc.2.counter = 1 + L.counter
      ∨ L.counter = 255 ∧ L.alloc.1 = .one ∧ L.alloc.2.counter = 255)
    ∧ L.alloc.2.blocks = L.blocks := by
  by_cases hc : L.counter = 255
  · rw [alloc_of_exhausted L (freeIndex_eq_none hlinked) hc]
    exact ⟨.inr ⟨hc, rfl, hc⟩, rfl⟩
  · rw [alloc_of_counter L (freeIndex_eq_none hlinked) hc]
    exact ⟨.inl ⟨hc, rfl, rfl⟩, rfl⟩

/-- The block that is written next fits, with the counter behind it: it is
the one the counter `c` stood for, on a disk of `n` blocks. -/
theorem solid_next {c : UInt8} {n : Nat} {b : BlockNo}
    (hlinked : ∀ blk ∈ L.blocks, blk.link ≠ 0) (hlen : L.blocks.length = n)
    (hle : c = 255 ∨ c.toNat ≤ n + 1)
    (hcases : c ≠ 255 ∧ b.val = c ∧ L.counter = 1 + c ∨ c = 255 ∧ b = .one ∧ L.counter = 255) :
    Solid b L := by
  have hnum := BlockNo.toNat_eq b
  rcases hcases with ⟨hc, hval, hcount⟩ | ⟨-, hone, hcount⟩
  · have hroom := hle.resolve_left hc
    rw [← hval] at hroom
    refine ⟨hlinked, by omega, .inr ?_⟩
    rw [hcount, toNat_one_add hc, ← hval, hnum]
    exact Nat.succ_le_succ (Nat.le_max_right _ _)
  · refine ⟨hlinked, ?_, .inl hcount⟩
    rw [hone]
    exact Nat.zero_le _

/-- The first block of a new file. -/
theorem Compact.alloc (h : Compact L) : Solid L.alloc.1 L.alloc.2 := by
  obtain ⟨hcases, hblocks⟩ := alloc_cases h.linked
  exact solid_next (by rw [hblocks]; exact h.linked) (congrArg List.length hblocks) h.counter
    hcases

namespace Solid

variable {b : BlockNo}

theorem addEntry (h : Solid b L) (e : Entry) (h15 : L.entries.length < 15) :
    Solid b (L.addEntry e h15) :=
  ⟨h.linked, h.room, h.counter⟩

/-- **One block of a text**: the counter or block 1 comes next, and block `b`
points there. -/
theorem extend_cases (h : Solid b L) {data : Bytes} (hdata : data.length = 255) :
    (L.counter ≠ 255 ∧ (L.extend b data hdata).1.val = L.counter
        ∧ (L.extend b data hdata).2.counter = 1 + L.counter
      ∨ L.counter = 255 ∧ (L.extend b data hdata).1 = .one
        ∧ (L.extend b data hdata).2.counter = 255)
    ∧ (L.extend b data hdata).2.blocks.length = max L.blocks.length (b.index + 1)
    ∧ (L.extend b data hdata).2.next
      = Function.update L.next b.val.toNat (some (L.extend b data hdata).1.val.toNat) := by
  obtain ⟨hcases, hblocks⟩ := alloc_cases h.linked
  have hnext : L.alloc.2.next = L.next := by
    apply next_congr
    intro i
    rw [hblocks]
  refine ⟨?_, ?_, ?_⟩
  · rw [extend, writeBlock_counter]
    exact hcases
  · rw [extend, length_blocks_writeBlock, length_blocks_alloc]
  · rw [extend, next_writeBlock, hnext, if_neg (val_ne_255 _)]

/-- The next block is written in front of the same kind of disk. -/
theorem extend (h : Solid b L) {data : Bytes} (hdata : data.length = 255) :
    Solid (L.extend b data hdata).1 (L.extend b data hdata).2 := by
  obtain ⟨hcases, hlen, -⟩ := h.extend_cases hdata
  refine solid_next ?_ hlen h.counter hcases
  obtain ⟨-, hblocks⟩ := alloc_cases h.linked
  apply linked_writeBlock
  · rw [hblocks]
    exact h.linked
  · rw [hblocks]
    exact h.room
  · exact val_ne_zero _

/-- The last block of a text. -/
theorem finish (h : Solid b L) {data : Bytes} (hdata : data.length = 255) :
    Compact (L.writeBlock b data hdata 255) := by
  refine ⟨linked_writeBlock h.linked h.room hdata (by decide), ?_⟩
  rw [writeBlock_counter, length_blocks_writeBlock]
  exact h.counter

/-- **A text that ends** leaves a compact disk. -/
theorem store (h : Solid b L) {content : Bytes} {fuel index : Nat}
    (hlen : content.length < (index + fuel) * 255) (hindex : index * 255 ≤ content.length) :
    Compact (Layout.store content fuel index b L).2 := by
  induction fuel generalizing index b L with
  | zero => omega
  | succ fuel ih =>
      by_cases hlast : content.length < (index + 1) * 255
      · rw [Layout.store, if_pos hlast]
        exact h.finish (length_chunk content index)
      · rw [store_more hlast]
        exact ih (h.extend _) (by rwa [Nat.add_assoc, Nat.add_comm 1 fuel])
          (Nat.le_of_not_lt hlast)

/-! ## A text that does not end -/

/-- The counter is used up. -/
theorem store_counter (h : Solid b L) {content : Bytes} {fuel index : Nat}
    (hlen : (index + fuel) * 255 ≤ content.length) (hc : 255 ≤ L.counter.toNat + fuel) :
    (Layout.store content fuel index b L).2.counter = 255 := by
  induction fuel generalizing index b L with
  | zero =>
      have hlt := L.counter.toNat_lt
      have hfull : L.counter.toNat = (255 : UInt8).toNat := by
        rw [show (255 : UInt8).toNat = 255 from rfl]
        omega
      exact UInt8.toNat_inj.mp hfull
  | succ fuel ih =>
      have hmore : ¬ content.length < (index + 1) * 255 := by omega
      rw [store_more hmore]
      apply ih (h.extend _) (by rwa [Nat.add_assoc, Nat.add_comm 1 fuel])
      obtain ⟨⟨hne, -, hcount⟩ | ⟨-, -, hcount⟩, -⟩ := h.extend_cases (length_chunk content index)
      · rw [hcount, toNat_one_add hne]
        omega
      · rw [hcount, show (255 : UInt8).toNat = 255 from rfl]
        omega

/-- **The chain of block 1 is lost**: if block 1 leads to the block being
written, or comes into the chain on the way, then the last allocation, which
answers block 1, closes a cycle. -/
theorem store_loops (h : Solid b L) {content : Bytes} {fuel index : Nat}
    (hlen : (index + fuel) * 255 ≤ content.length) (hc : 256 ≤ L.counter.toNat + fuel)
    (hlead : Leads L.next b.val.toNat 1 ∨ L.counter = 1 ∨ 257 ≤ L.counter.toNat + fuel) :
    ¬ Ends (Layout.store content fuel index b L).2.next 1 := by
  induction fuel generalizing index b L with
  | zero =>
      have hlt := L.counter.toNat_lt
      omega
  | succ fuel ih =>
      have hmore : ¬ content.length < (index + 1) * 255 := by omega
      have hlen' : (index + 1 + fuel) * 255 ≤ content.length := by
        rwa [Nat.add_assoc, Nat.add_comm 1 fuel]
      have hdata := length_chunk content index
      obtain ⟨hcases, -, hnext⟩ := h.extend_cases hdata
      -- what led to `b` leads one block further
      have hsnoc : Leads L.next b.val.toNat 1 →
          Leads (L.extend b _ hdata).2.next (L.extend b _ hdata).1.val.toNat 1 := by
        intro hb
        rw [hnext]
        exact (hb.update _).snoc (Function.update_self ..)
      rw [store_more hmore]
      rcases hcases with ⟨hne, hval, hcount⟩ | ⟨hfull, hone, hcount⟩
      · -- the counter comes next
        have hsucc : (L.extend b _ hdata).2.counter.toNat = L.counter.toNat + 1 := by
          rw [hcount, toNat_one_add hne]
        refine ih (h.extend _) hlen' (by omega) ?_
        rcases hlead with hb | hfirst | hfar
        · exact .inl (hsnoc hb)
        · left
          rw [hval, hfirst]
          exact .here
        · exact .inr (.inr (by omega))
      · -- block 1 comes next
        have hlast : (L.extend b _ hdata).1.val.toNat = 1 := by
          rw [hone]
          rfl
        rw [hfull, show (255 : UInt8).toNat = 255 from rfl] at hc hlead
        cases fuel with
        | zero =>
            have hb : Leads L.next b.val.toNat 1 := by
              rcases hlead with hb | hfirst | hfar
              · exact hb
              · exact absurd hfirst (by decide)
              · omega
            rw [Layout.store, hnext, hlast]
            exact not_ends_of_cycle (hb.update _) (Function.update_self ..)
        | succ fuel =>
            refine ih (h.extend _) hlen' ?_ (.inl ?_)
            · rw [hcount, show (255 : UInt8).toNat = 255 from rfl]
              omega
            · rw [hlast]
              exact .here

end Solid

/-! ## Blocks that look free -/

theorem linked_of_free (h : L.freeIndex = none) : ∀ blk ∈ L.blocks, blk.link ≠ 0 := by
  rw [freeIndex, List.findIdx?_eq_none_iff] at h
  intro blk hblk
  simpa using h blk hblk

theorem lt_of_free {i : Nat} (h : L.freeIndex = some i) : i < L.blocks.length :=
  (List.findIdx?_eq_some_iff_getElem.mp h).1

theorem next_of_free {i : Nat} (h : L.freeIndex = some i) : L.next (i + 1) = some 0 := by
  obtain ⟨hlt, hzero, -⟩ := List.findIdx?_eq_some_iff_getElem.mp h
  have hlink : L.link (i + 1) = 0 := by
    rw [link, if_neg (Nat.succ_ne_zero i), Nat.add_sub_cancel, List.getElem?_eq_getElem hlt]
    simpa using hzero
  rw [next, if_neg (Nat.succ_ne_zero i), hlink]
  rfl

/-- A link byte that is not 0 stays so. -/
theorem store_next_ne {n : Nat} {content : Bytes} {fuel index : Nat} {b : BlockNo}
    {L : Layout} (h : L.next n ≠ some 0) :
    (store content fuel index b L).2.next n ≠ some 0 := by
  have hupdate : ∀ {f : Nat → Option Nat} {k : Nat} {v : Option Nat}, f n ≠ some 0 →
      v ≠ some 0 → Function.update f k v n ≠ some 0 := by
    intro f k v hf hv
    by_cases hk : n = k
    · rwa [hk, Function.update_self]
    · rwa [Function.update_of_ne hk]
  induction fuel generalizing index b L with
  | zero => exact h
  | succ fuel ih =>
      rw [store]
      split
      · rw [next_writeBlock, if_pos rfl]
        exact hupdate h (by simp)
      · apply ih
        rw [next_writeBlock, if_neg (val_ne_255 _)]
        apply hupdate
        · rcases L.next_alloc with heq | heq
          · rwa [heq]
          · rw [heq]
            exact hupdate h (by simp)
        · intro hzero
          have hpos := L.alloc.1.pos
          rw [Option.some.inj hzero] at hpos
          exact Nat.lt_irrefl _ hpos

/-- A block that looked free does not when the allocator has passed. -/
theorem extend_next_ne {i : Nat} (h : L.freeIndex = some i) (b : BlockNo) {data : Bytes}
    (hdata : data.length = 255) : (L.extend b data hdata).2.next (i + 1) ≠ some 0 := by
  rw [extend, next_writeBlock, if_neg (val_ne_255 _), alloc_of_free L h,
    next_claim L (lt_of_free h)]
  by_cases hb : i + 1 = b.val.toNat
  · rw [hb, Function.update_self, BlockNo.toNat_ofIndex]
    simp
  · rw [Function.update_of_ne hb, Function.update_self]
    simp

end Layout

end DistributedAscii.FileSystem
