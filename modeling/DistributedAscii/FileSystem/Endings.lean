import DistributedAscii.FileSystem.Failure
import DistributedAscii.FileSystem.Reading
import DistributedAscii.Lib.Pointers

/-!
# FileSystem — chains that end

Complete calls leave every entry with a chain that reaches the mark 255,
whatever happens on the way: reclaimed holes, an exhausted counter that
hands out block 1 again, a full directory that is overrun. The link bytes
of a layout are a store of pointers, the allocator marks its block as last,
and the writer redirects one pointer at a time, so the chains end by the
rules of `Lib.Pointers`.
-/

namespace DistributedAscii.FileSystem

open Lib.ByteFile Lib.Pointers Lib.Runs

namespace Layout

variable (L : Layout)

/-- Where block `n` leads. Block 0 is no data block: a reader that gets
there starts again, so it leads to itself. -/
def next (n : Nat) : Option Nat :=
  if n = 0 then some 0 else if L.link n = 255 then none else some (L.link n).toNat

/-- Block 0 reaches no end. -/
theorem not_ends_zero {x : Nat} (h : Ends L.next x) : x ≠ 0 := by
  induction h with
  | @last x h =>
      rintro rfl
      rw [next, if_pos rfl] at h
      cases h
  | @step x y h _ ih =>
      rintro rfl
      rw [next, if_pos rfl] at h
      exact ih (Option.some.inj h).symm

/-! ## The operations on the pointers -/

/-- `next` depends on the link bytes of the data blocks only. -/
theorem next_congr {L L' : Layout}
    (h : ∀ i : Nat, (L'.blocks[i]?.map Block.link).getD 0 = (L.blocks[i]?.map Block.link).getD 0) :
    L'.next = L.next := by
  funext n
  rw [next, next, link, link]
  split
  · rfl
  · rw [h]

/-- Changing the data of a block. -/
theorem map_link_modify (blocks : List Block) (i j : Nat) {f : Block → Block}
    (hf : ∀ b, (f b).link = b.link) :
    (blocks.modify i f)[j]?.map Block.link = blocks[j]?.map Block.link := by
  rw [List.getElem?_modify]
  cases blocks[j]? with
  | none => rfl
  | some b =>
      by_cases hij : i = j
      · simp [hij, hf]
      · simp [hij]

theorem next_bump (h : L.counter ≠ 255) : (L.bump h).next = L.next :=
  next_congr fun _ => rfl

/-- Setting a link byte. -/
theorem next_update {L L' : Layout} {i : Nat} {v : UInt8}
    (h : ∀ j : Nat, (L'.blocks[j]?.map Block.link).getD 0
      = if j = i then v else (L.blocks[j]?.map Block.link).getD 0) :
    L'.next = Function.update L.next (i + 1) (if v = 255 then none else some v.toNat) := by
  funext n
  cases n with
  | zero =>
      rw [Function.update_of_ne (by omega), next, next, if_pos rfl, if_pos rfl]
  | succ j =>
      rw [next, link, if_neg (Nat.succ_ne_zero j), if_neg (Nat.succ_ne_zero j),
        Nat.add_sub_cancel, h]
      by_cases hj : j = i
      · subst hj
        rw [if_pos rfl, Function.update_self]
      · rw [if_neg hj, Function.update_of_ne (by omega), next, link,
          if_neg (Nat.succ_ne_zero j), if_neg (Nat.succ_ne_zero j), Nat.add_sub_cancel]

theorem getD_withLink {blocks : List Block} {i : Nat} (hi : i < blocks.length) (v : UInt8)
    (j : Nat) : ((blocks.modify i (Block.withLink v))[j]?.map Block.link).getD 0
      = if j = i then v else (blocks[j]?.map Block.link).getD 0 := by
  by_cases hj : j = i
  · subst hj
    rw [if_pos rfl, List.getElem?_modify_eq, List.getElem?_eq_getElem hi]
    rfl
  · rw [if_neg hj, List.getElem?_modify_ne _ _ (fun h => hj h.symm)]

theorem next_claim {i : Nat} (hi : i < L.blocks.length) :
    (L.claim i).next = Function.update L.next (i + 1) none :=
  next_update (v := 255) (getD_withLink hi 255)

/-- The blocks that fill a gap read as the end of the file did: link byte 0. -/
theorem getD_growTo (b : BlockNo) (j : Nat) :
    ((L.growTo b).blocks[j]?.map Block.link).getD 0 = (L.blocks[j]?.map Block.link).getD 0 := by
  show ((L.blocks ++ List.replicate (b.index - L.blocks.length) Block.zero)[j]?.map
    Block.link).getD 0 = _
  by_cases hj : j < L.blocks.length
  · rw [List.getElem?_append_left hj]
  · have hnone : L.blocks[j]? = none := List.getElem?_eq_none (by omega)
    rw [List.getElem?_append_right (by omega), hnone, List.getElem?_replicate]
    split <;> rfl

/-- **Writing a block** sets its pointer, and no other one. -/
theorem next_writeBlock (b : BlockNo) {data : Bytes} (h : data.length = 255) (v : UInt8) :
    (L.writeBlock b data h v).next
      = Function.update L.next b.val.toNat (if v = 255 then none else some v.toNat) := by
  rw [BlockNo.toNat_eq]
  apply next_update
  intro j
  rw [writeBlock]
  by_cases hlt : b.index < L.blocks.length
  · rw [dif_pos hlt]
    by_cases hj : j = b.index
    · subst hj
      rw [if_pos rfl, List.getElem?_set_self hlt]
      rfl
    · rw [if_neg hj, List.getElem?_set_ne (fun h => hj h.symm)]
  · have hlen := length_blocks_growTo L (Nat.le_of_not_lt hlt)
    rw [dif_neg hlt]
    by_cases hj : j = b.index
    · rw [if_pos hj, hj, List.getElem?_append_right (by omega), hlen, Nat.sub_self]
      rfl
    · rw [if_neg hj, ← getD_growTo L b]
      by_cases hj' : j < b.index
      · rw [List.getElem?_append_left (by omega)]
      · have hnone : (L.growTo b).blocks[j]? = none := List.getElem?_eq_none (by omega)
        have hnone' : ((L.growTo b).blocks ++ [(⟨data, v, h⟩ : Block)])[j]? = none := by
          rw [List.getElem?_eq_none_iff, List.length_append, List.length_singleton]
          omega
        rw [hnone, hnone']

theorem next_enter (name : CString) (b : BlockNo) (hpos : 0 < name.length)
    (hle : name.length ≤ 16) : (L.enter name b hpos hle).next = L.next := by
  apply next_congr
  intro i
  rw [enter]
  split
  · rfl
  · exact congrArg (Option.getD · 0) (map_link_modify L.blocks 0 i fun _ => rfl)

/-- The allocator marks the block that it reclaims as last, and does
nothing else to the pointers. -/
theorem next_alloc :
    L.alloc.2.next = L.next
      ∨ L.alloc.2.next = Function.update L.next L.alloc.1.val.toNat none := by
  cases hf : L.freeIndex with
  | some i =>
      right
      have hi : i < L.blocks.length := by
        rw [freeIndex, List.findIdx?_eq_some_iff_getElem] at hf
        exact hf.1
      rw [alloc_of_free L hf, next_claim L hi, BlockNo.toNat_ofIndex]
  | none =>
      left
      by_cases hc : L.counter = 255
      · rw [alloc_of_exhausted L hf hc]
      · rw [alloc_of_counter L hf hc, next_bump]

/-- No chain is opened by an allocation. -/
theorem ends_alloc {x : Nat} (h : Ends L.next x) : Ends L.alloc.2.next x := by
  rcases L.next_alloc with heq | heq
  · rwa [heq]
  · rw [heq]
    exact h.close _

theorem pending_alloc {b x : Nat} (h : Pending L.next b x) : Pending L.alloc.2.next b x := by
  rcases L.next_alloc with heq | heq
  · rwa [heq]
  · rw [heq]
    exact h.close_other _

/-- **The writer closes what it opens**: a cell that ended, or led to the
block being written, ends when a text that fits has been stored. -/
theorem store_ends {content : Bytes} {fuel index : Nat}
    (hlen : content.length < (index + fuel) * 255) (hindex : index * 255 ≤ content.length)
    (b : BlockNo) {x : Nat} {L : Layout} (h : Pending L.next b.val.toNat x) :
    Ends (store content fuel index b L).2.next x := by
  induction fuel generalizing index b L with
  | zero => omega
  | succ fuel ih =>
      have hdata := length_chunk content index
      rw [store]
      by_cases hlast : content.length < (index + 1) * 255
      · -- 255 in the link byte closes the chain
        rw [if_pos hlast, next_writeBlock, if_pos rfl]
        exact h.close
      · -- the open end moves to the block that was just allocated
        rw [if_neg hlast]
        apply ih (by rwa [Nat.add_assoc, Nat.add_comm 1 fuel]) (Nat.le_of_not_lt hlast)
        have hne : L.alloc.1.val ≠ 255 := by
          intro hc
          have hle := L.alloc.1.le
          rw [hc] at hle
          exact absurd hle (by decide)
        rw [next_writeBlock, if_neg hne]
        exact (pending_alloc _ h).redirect _

/-- A text that is stored leaves a block. -/
theorem writeBlock_blocks_ne (b : BlockNo) {data : Bytes} (h : data.length = 255)
    (v : UInt8) : (L.writeBlock b data h v).blocks ≠ [] := by
  apply List.ne_nil_of_length_pos
  rw [length_blocks_writeBlock]
  omega

theorem store_blocks_ne {content : Bytes} {fuel index : Nat} {b : BlockNo} {L : Layout}
    (h : fuel ≠ 0 ∨ L.blocks ≠ []) : (store content fuel index b L).2.blocks ≠ [] := by
  induction fuel generalizing index b L with
  | zero => exact h.resolve_left (fun h0 => h0 rfl)
  | succ fuel ih =>
      rw [store]
      split
      · exact writeBlock_blocks_ne _ _ _ _
      · exact ih (.inr (writeBlock_blocks_ne _ _ _ _))

/-! ## Runs of complete calls -/

/-- Every entry has a chain that ends, and the slot loop stays in the file. -/
structure Readable : Prop where
  ends : ∀ e ∈ L.entries, Ends L.next e.firstBlock.val.toNat
  room : L.entries.length < 15 ∨ L.blocks ≠ []

theorem readable_fresh : fresh.Readable where
  ends := fun _ he => absurd he List.not_mem_nil
  room := .inl (by decide)

/-- The entries behind a new name: the old ones and one with its block. -/
theorem mem_entries_enter {name : CString} {b : BlockNo} {hpos : 0 < name.length}
    {hle : name.length ≤ 16} {e : Entry} (he : e ∈ (L.enter name b hpos hle).entries) :
    e ∈ L.entries ∨ e.firstBlock = b := by
  rw [enter] at he
  split at he
  · rcases List.mem_append.mp he with he | he
    · exact .inl he
    · obtain rfl := List.mem_singleton.mp he
      exact .inr rfl
  · exact .inl he

variable {L}

/-- **A complete call** keeps every chain readable. -/
theorem Readable.write (h : L.Readable) {name : CString} {content : Option Bytes}
    (hc : (∃ text, content = some text ∧ text.length < 255 * 255)
      ∨ L.write name content = (exitFailure, L)) :
    (L.write name content).2.Readable := by
  by_cases hnew : (0 < name.length ∧ name.length ≤ 16) ∧ L.find name = none
  · rcases hc with ⟨text, rfl, hlen⟩ | hsame
    · obtain ⟨⟨hpos, hle⟩, hfind⟩ := hnew
      rw [write_some L hpos hle hfind]
      refine ⟨?_, .inr (store_blocks_ne (.inl (by decide)))⟩
      intro e he
      rw [store_entries] at he
      apply store_ends (by rwa [Nat.zero_add]) (by rw [Nat.zero_mul]; exact Nat.zero_le _)
      rw [next_enter]
      rcases mem_entries_enter _ he with he | he
      · rw [entries_alloc] at he
        exact .inl (L.ends_alloc (h.ends e he))
      · rw [he]
        exact .inr .here
    · rw [hsame]
      exact h
  · rw [write_rejected L hnew]
    exact h

/-- Whatever complete calls were made, every chain is readable. -/
theorem readable_run {host : Host} {calls : List WriteCall}
    (h : ∀ front c, front ++ [c] <+: calls → Complete host (runWrites host front) c) :
    ∃ L : Layout, runWrites host calls = L.toBytes ∧ L.Readable := by
  refine prefix_induction (P := fun front =>
    ∃ L : Layout, runWrites host front = L.toBytes ∧ L.Readable) ?_ ?_ calls List.prefix_rfl
  · exact ⟨fresh, toBytes_fresh.symm, readable_fresh⟩
  · intro front c hfront ⟨L, hdisk, hL⟩
    have hcomplete := h front c hfront
    rw [hdisk] at hcomplete
    refine ⟨(L.write c.name (host c.path)).2, ?_, hL.write ?_⟩
    · rw [runWrites_append, hdisk, writeMounted_toBytes L hL.room]
    · rcases hcomplete with hlong | hthere | ⟨text, htext, hlen⟩
      · exact .inr (write_rejected L fun hc => by omega)
      · refine .inr (write_rejected L ?_)
        rintro ⟨⟨hpos, _⟩, hfind⟩
        rw [existFile_toBytes L hpos, hfind] at hthere
        exact absurd hthere (by simp)
      · exact .inl ⟨text, htext, hlen⟩

end Layout

end DistributedAscii.FileSystem
