import DistributedAscii.FileSystem.Success

/-!
# FileSystem — a full directory

The slot loop has no answer for a full directory: it ends behind byte 271,
and `allocateInDirectory` writes the entry over the bytes 255 to 271, the
free counter and the front of block 1. A call leaves such a disk alone only
if it does not get so far, or if it writes what is there and its host file
cannot be opened. A text that is too long always leaves a trace: either the
disk grows, or the counter is used up and the chain of block 1 is lost.
-/

namespace DistributedAscii.FileSystem

open Lib.ByteFile Lib.Pointers Layout

/-- All 15 slots are taken. -/
def FullDirectory (disk : Disk) : Prop :=
  ∀ k, k < 15 → slotFirst disk k ≠ 0

/-- No slot has the name. -/
def NewName (disk : Disk) (name : CString) : Prop :=
  ∀ k, k < 15 → slotName disk k ≠ name.bytes

/-- The call fails, and the disk file is what it was. -/
def Refused (host : Host) (c : WriteCall) (disk : Disk) : Prop :=
  writeFile host c.name c.path (some disk) = (exitFailure, some disk)

/-- No block looks free, and the bytes 255 to 271 are the name with the
block that the counter stands for. -/
def SameBytes (disk : Disk) (name : CString) : Prop :=
  scanFree disk (List.range' 1 254) = none
    ∧ readAt disk 255 17
      = padTo 16 name.bytes ++ [if disk.getD 255 0 = 255 then 1 else disk.getD 255 0]

namespace Layout

variable {L L' : Layout}

/-! ## Disks with the same bytes -/

theorem next_of_toBytes_eq (h : L'.toBytes = L.toBytes) : L'.next = L.next := by
  funext n
  rw [next, next, ← getD_link, ← getD_link, h]

theorem counter_of_toBytes_eq (h : L'.toBytes = L.toBytes) : L'.counter = L.counter := by
  rw [← L'.getD_counter [], ← L.getD_counter [], h]

theorem length_blocks_of_toBytes_eq (h : L'.toBytes = L.toBytes) :
    L'.blocks.length = L.blocks.length := by
  have hlen := congrArg List.length h
  rw [length_toBytes, length_toBytes] at hlen
  omega

/-! ## What the writer never undoes -/

/-- The disk does not shrink, and the block that is written is on it. -/
theorem store_room (content : Bytes) (fuel index : Nat) (b : BlockNo) (L : Layout) :
    L.blocks.length ≤ (store content fuel index b L).2.blocks.length
      ∧ (fuel ≠ 0 → b.index < (store content fuel index b L).2.blocks.length) := by
  induction fuel generalizing index b L with
  | zero => exact ⟨Nat.le_refl _, fun h => absurd rfl h⟩
  | succ fuel ih =>
      have hdata := length_chunk content index
      by_cases hlast : content.length < (index + 1) * 255
      · rw [store, if_pos hlast, length_blocks_writeBlock]
        omega
      · have hext : (L.extend b (chunk content index) hdata).2.blocks.length
            = max L.blocks.length (b.index + 1) := by
          rw [extend, length_blocks_writeBlock, length_blocks_alloc]
        have hrest := (ih (index + 1) (L.extend b _ hdata).1 (L.extend b _ hdata).2).1
        rw [store_more hlast]
        omega

/-! ## The overrun -/

section Overrun

variable {name : CString} {b : BlockNo} (hpos : 0 < name.length) (hle : name.length ≤ 16)

theorem enter_full (h15 : L.entries.length = 15) :
    L.enter name b hpos hle = L.overrun name b hpos hle := by
  rw [enter, dif_neg (by omega)]

/-- The overrun keeps the link bytes. -/
theorem linked_overrun (hlinked : ∀ blk ∈ L.blocks, blk.link ≠ 0) :
    ∀ blk ∈ (L.overrun name b hpos hle).blocks, blk.link ≠ 0 :=
  linked_modify hlinked hlinked

/-- A block that looked free does not look so any more. -/
theorem next_overrun_ne (h15 : L.entries.length = 15) {i : Nat} (hi : L.freeIndex = some i) :
    (L.alloc.2.overrun name L.alloc.1 hpos hle).next (i + 1) ≠ some 0 := by
  have h15' : L.alloc.2.entries.length = 15 := by rw [entries_alloc, h15]
  rw [← enter_full hpos hle h15', next_enter, alloc_of_free L hi, next_claim L (lt_of_free hi),
    Function.update_self]
  simp

/-- A full directory with the 17 bytes behind it. -/
theorem toBytes_full (h15 : L.entries.length = 15) {blk : Block} {rest : List Block}
    (hblocks : L.blocks = blk :: rest) :
    L.toBytes = L.slots ++ (L.counter :: blk.data.take 16)
      ++ (blk.data.drop 16 ++ [blk.link] ++ rest.flatMap Block.toBytes) := by
  have hsplit : blk.data.take 16 ++ blk.data.drop 16 = blk.data := List.take_append_drop _ _
  rw [toBytes, directory, h15, hblocks, List.flatMap_cons, Block.toBytes]
  conv_lhs => rw [← hsplit]
  simp only [Nat.reduceMul, Nat.sub_self, List.replicate_zero, List.append_nil,
    List.append_assoc, List.cons_append, List.nil_append]

/-- **When the overrun changes nothing.** -/
theorem overrun_toBytes_eq_iff (h15 : L.entries.length = 15) (hne : L.blocks ≠ [])
    (hentries : L'.entries = L.entries) (hblocks : L'.blocks = L.blocks) :
    (L'.overrun name b hpos hle).toBytes = L.toBytes
      ↔ readAt L.toBytes 255 17 = padTo 16 name.bytes ++ [b.val] := by
  obtain ⟨blk, rest, hb⟩ := List.exists_cons_of_ne_nil hne
  have hpad := length_padTo hle
  have hdata := blk.size_data
  have hslots : L.slots.length = 255 := by rw [length_slots, h15]
  have hfull := toBytes_full h15 hb
  have hread : readAt L.toBytes 255 17 = L.counter :: blk.data.take 16 := by
    have h := readAt_middle L.slots (L.counter :: blk.data.take 16)
      (blk.data.drop 16 ++ [blk.link] ++ rest.flatMap Block.toBytes)
    rw [hslots, List.length_cons, List.length_take, hdata] at h
    rw [hfull]
    exact h
  have hfront : name.bytes.head (List.ne_nil_of_length_pos hpos) :: (padTo 16 name.bytes).drop 1
      = padTo 16 name.bytes := by
    obtain ⟨c, cs, hc⟩ := List.exists_cons_of_ne_nil (List.ne_nil_of_length_pos hpos)
    simp only [hc, padTo, List.head_cons, List.cons_append, List.drop_succ_cons, List.drop_zero]
  have hlen : ((padTo 16 name.bytes).drop 1 ++ [b.val]).length = 16 := by
    rw [List.length_append, List.length_drop, List.length_singleton, hpad]
  have hblocks' : (L'.overrun name b hpos hle).blocks = overrunBlock name b hle blk :: rest := by
    show L'.blocks.modify 0 (overrunBlock name b hle) = _
    rw [hblocks, hb, List.modify_zero_cons]
  have hslots' : (L'.overrun name b hpos hle).slots = L.slots := by
    rw [slots, slots, ← hentries]
    rfl
  have hdata' : (overrunBlock name b hle blk).data
      = (padTo 16 name.bytes).drop 1 ++ [b.val] ++ blk.data.drop 16 := rfl
  have h15' : (L'.overrun name b hpos hle).entries.length = 15 := by
    rw [← h15, ← hentries]
    rfl
  have hover : (L'.overrun name b hpos hle).toBytes
      = L.slots ++ (padTo 16 name.bytes ++ [b.val])
        ++ (blk.data.drop 16 ++ [blk.link] ++ rest.flatMap Block.toBytes) := by
    rw [toBytes_full h15' hblocks', hslots',
      hdata', List.take_left' hlen, List.drop_left' hlen]
    conv_rhs => rw [← hfront]
    rfl
  rw [hover, hread, hfull, List.append_cancel_right_eq, List.append_cancel_left_eq]
  exact eq_comm

end Overrun

/-! ## A text that is too long -/

/-- **An overlong text leaves a trace.** -/
theorem write_overlong (hL : Grown L) (h15 : L.entries.length = 15) {name : CString}
    (hpos : 0 < name.length) (hle : name.length ≤ 16) (hfind : L.find name = none)
    {text : Bytes} (hlong : 255 * 255 ≤ text.length) :
    (L.write name (some text)).2.toBytes ≠ L.toBytes := by
  intro heq
  have h15' : L.alloc.2.entries.length = 15 := by rw [entries_alloc, h15]
  rw [write_some L hpos hle hfind, enter_full hpos hle h15'] at heq
  have hnext := next_of_toBytes_eq heq
  have hcounter := counter_of_toBytes_eq heq
  have hlen := length_blocks_of_toBytes_eq heq
  have hfree : L.freeIndex = none := by
    by_contra hsome
    obtain ⟨i, hi⟩ := Option.ne_none_iff_exists'.mp hsome
    have hkept : (store text 255 0 L.alloc.1
        (L.alloc.2.overrun name L.alloc.1 hpos hle)).2.next (i + 1) ≠ some 0 :=
      store_next_ne (next_overrun_ne hpos hle h15 hi)
    rw [hnext] at hkept
    exact hkept (next_of_free hi)
  have hlinked := linked_of_free hfree
  obtain ⟨hcases, hblocks⟩ := alloc_cases hlinked
  have hlinked₁ : ∀ blk ∈ (L.alloc.2.overrun name L.alloc.1 hpos hle).blocks, blk.link ≠ 0 := by
    apply linked_overrun
    rw [hblocks]
    exact hlinked
  have hlen₁ : (L.alloc.2.overrun name L.alloc.1 hpos hle).blocks.length = L.blocks.length := by
    rw [overrun, List.length_modify, hblocks]
  generalize hL₁ : L.alloc.2.overrun name L.alloc.1 hpos hle = L₁ at *
  -- nothing was written behind the end of the disk
  have hb : L.alloc.1.index < L.blocks.length := by
    rw [← hlen]
    exact (store_room text 255 0 L.alloc.1 L₁).2 (by decide)
  have hsolid : Solid L.alloc.1 L₁ := by
    refine ⟨hlinked₁, by omega, ?_⟩
    by_cases hc : L₁.counter = 255
    · exact .inl hc
    · right
      have hdata := length_chunk text 0
      have hmore : ¬ text.length < (0 + 1) * 255 := by omega
      have hval : (L₁.extend L.alloc.1 (chunk text 0) hdata).1.val = L₁.counter := by
        obtain ⟨hcases, -⟩ := alloc_cases hlinked₁
        rcases hcases with ⟨-, hval, -⟩ | ⟨hfull, -⟩
        · exact hval
        · exact absurd hfull hc
      have hroom := (store_room text 254 (0 + 1) (L₁.extend L.alloc.1 (chunk text 0) hdata).1
        (L₁.extend L.alloc.1 (chunk text 0) hdata).2).2 (by decide)
      rw [store_more hmore] at hlen
      have hnum := BlockNo.toNat_eq (L₁.extend L.alloc.1 (chunk text 0) hdata).1
      rw [hval] at hnum
      omega
  -- so the counter was used up before the call, and block 1 was written first
  have hpos₁ := L₁.one_le_counter
  have hfull : L.counter = 255 := by
    rw [← hcounter]
    exact hsolid.store_counter (by omega) (by omega)
  have hone : L.alloc.1 = .one := by
    rcases hcases with ⟨hne, -⟩ | ⟨-, hone, -⟩
    · exact absurd hfull hne
    · exact hone
  have hloop : ¬ Ends L.next 1 := by
    rw [← hnext]
    refine hsolid.store_loops (by omega) (by omega) (.inl ?_)
    rw [hone]
    exact .here
  rcases hL.first with rfl | ⟨e, he, hfirst⟩
  · exact absurd h15 (by decide)
  · have hends := hL.ends e (List.mem_of_mem_head? he)
    rw [hfirst] at hends
    exact hloop hends

/-! ## The call -/

/-- The block that the counter stands for. -/
theorem val_alloc_of_linked (hlinked : ∀ blk ∈ L.blocks, blk.link ≠ 0) :
    L.alloc.1.val = if L.counter = 255 then 1 else L.counter := by
  obtain ⟨⟨hne, hval, -⟩ | ⟨hfull, hone, -⟩, -⟩ := alloc_cases hlinked
  · rw [if_neg hne, hval]
  · rw [if_pos hfull, hone]
    rfl

theorem sameBytes_iff {name : CString} :
    SameBytes L.toBytes name
      ↔ L.freeIndex = none ∧ readAt L.toBytes 255 17
          = padTo 16 name.bytes ++ [if L.counter = 255 then 1 else L.counter] := by
  have hscan := L.scanFree_toBytes (show ([] : Bytes).length < 256 by decide)
  have hcounter := L.getD_counter []
  rw [List.append_nil] at hscan hcounter
  rw [SameBytes, hscan, hcounter, Option.map_eq_none_iff]

/-- **Without a host file** only the overrun is left. -/
theorem write_none_same_iff (h15 : L.entries.length = 15) (hne : L.blocks ≠ [])
    {name : CString} (hpos : 0 < name.length) (hle : name.length ≤ 16)
    (hfind : L.find name = none) :
    (L.write name none).2.toBytes = L.toBytes ↔ SameBytes L.toBytes name := by
  have h15' : L.alloc.2.entries.length = 15 := by rw [entries_alloc, h15]
  rw [write_none L hpos hle hfind, enter_full hpos hle h15', sameBytes_iff]
  have hsame : L.freeIndex = none →
      ((L.alloc.2.overrun name L.alloc.1 hpos hle).toBytes = L.toBytes
        ↔ readAt L.toBytes 255 17
          = padTo 16 name.bytes ++ [if L.counter = 255 then 1 else L.counter]) := by
    intro hfree
    have hlinked := linked_of_free hfree
    rw [← val_alloc_of_linked hlinked]
    exact overrun_toBytes_eq_iff hpos hle h15 hne (entries_alloc L) (alloc_cases hlinked).2
  constructor
  · intro heq
    have hfree : L.freeIndex = none := by
      by_contra hsome
      obtain ⟨i, hi⟩ := Option.ne_none_iff_exists'.mp hsome
      have hkept := next_overrun_ne hpos hle h15 hi
      rw [next_of_toBytes_eq heq] at hkept
      exact hkept (next_of_free hi)
    exact ⟨hfree, (hsame hfree).mp heq⟩
  · rintro ⟨hfree, hbytes⟩
    exact (hsame hfree).mpr hbytes

end Layout

section Calls

variable {host : Host} {calls : List WriteCall} {c : WriteCall}

/-- The disk of a run that has filled the directory. -/
theorem Succeeds.full (h : Succeeds host calls)
    (hfull : FullDirectory (runWrites host calls)) (hnew : NewName (runWrites host calls) c.name) :
    ∃ L, runWrites host calls = L.toBytes ∧ Grown L ∧ L.entries.length = 15
      ∧ L.find c.name = none := by
  obtain ⟨L, hdisk, hL⟩ := h.grown
  rw [hdisk] at hfull hnew
  have h15 := L.entries_le
  refine ⟨L, hdisk, hL, ?_, ?_⟩
  · by_contra hne
    exact hfull L.entries.length (by omega) (L.slot_free (Nat.le_refl _) (by omega)).2
  · apply L.find_eq_none
    intro j hj _ hname
    apply hnew j (by omega)
    rw [(L.slot_entry hj).1, hname]

/-- A call with a host file does not leave a full directory alone. -/
theorem not_refused_of_some (h : Succeeds host calls)
    (hfull : FullDirectory (runWrites host calls)) (hnew : NewName (runWrites host calls) c.name)
    (hpos : 0 < c.name.length) (hle : c.name.length ≤ 16) {text : Bytes}
    (htext : host c.path = some text) : ¬ Refused host c (runWrites host calls) := by
  obtain ⟨L, hdisk, hL, h15, hfind⟩ := h.full hfull hnew
  rw [Refused, hdisk, hL.writeFile, htext, Prod.mk.injEq, Option.some.injEq]
  rintro ⟨hcode, hsame⟩
  by_cases hlong : 255 * 255 ≤ text.length
  · exact write_overlong hL h15 hpos hle hfind hlong hsame
  · rw [write_some L hpos hle hfind, store_success (by omega)] at hcode
    exact absurd hcode (by decide)

/-- **When a full directory is refused**: if the name is no name, or if the
host file cannot be opened and the overrun writes what is there. -/
theorem refused_iff (h : Succeeds host calls) (hfull : FullDirectory (runWrites host calls))
    (hnew : NewName (runWrites host calls) c.name) :
    Refused host c (runWrites host calls)
      ↔ c.name.length = 0 ∨ 16 < c.name.length
        ∨ (host c.path = none ∧ SameBytes (runWrites host calls) c.name) := by
  obtain ⟨L, hdisk, hL, h15, hfind⟩ := h.full hfull hnew
  have hne : L.blocks ≠ [] := hL.room.resolve_left (by omega)
  by_cases hname : 0 < c.name.length ∧ c.name.length ≤ 16
  · obtain ⟨hpos, hle⟩ := hname
    have hcond : (c.name.length = 0 ∨ 16 < c.name.length
        ∨ (host c.path = none ∧ SameBytes (runWrites host calls) c.name))
          ↔ host c.path = none ∧ SameBytes (runWrites host calls) c.name := by
      constructor
      · rintro (h0 | h16 | hboth)
        · omega
        · omega
        · exact hboth
      · exact fun hboth => .inr (.inr hboth)
    rw [hcond]
    cases hhost : host c.path with
    | some text =>
        have hnot := not_refused_of_some h hfull hnew hpos hle hhost
        simp [hnot]
    | none =>
        have hcode : (L.write c.name none).1 = exitFailure := by
          rw [write_none L hpos hle hfind]
        rw [Refused, hdisk, hL.writeFile, hhost, Prod.mk.injEq, Option.some.injEq,
          write_none_same_iff h15 hne hpos hle hfind]
        simp [hcode]
  · -- the name is rejected before the directory is touched
    have hrejected : L.write c.name (host c.path) = (exitFailure, L) :=
      write_rejected L fun hc => hname hc.1
    constructor
    · intro _
      omega
    · intro _
      rw [Refused, hdisk, hL.writeFile, hrejected]

/-! ## Fifteen letters -/

theorem Succeeds.fullDirectory (h : Succeeds host calls) (hlen : calls.length = 15) :
    FullDirectory (runWrites host calls) := by
  obtain ⟨L, hdisk, hL⟩ := h.filled (Nat.le_of_eq hlen)
  intro k hk hzero
  have hk' : k < L.entries.length := by rw [hL.length_entries, hlen]; exact hk
  rw [hdisk, (L.slot_entry hk').2] at hzero
  have hfirst := L.entries[k].firstBlock.pos
  rw [hzero] at hfirst
  exact Nat.lt_irrefl _ hfirst

theorem Succeeds.newName (h : Succeeds host calls) (hlen : calls.length = 15) {name : CString}
    (hname : name ∉ calls.map WriteCall.name) : NewName (runWrites host calls) name := by
  obtain ⟨L, hdisk, hL⟩ := h.filled (Nat.le_of_eq hlen)
  intro k hk heq
  have hk' : k < L.entries.length := by rw [hL.length_entries, hlen]; exact hk
  rw [hdisk, (L.slot_entry hk').1] at heq
  apply hname
  rw [← hL.names, ← CString.ext heq]
  exact List.mem_map_of_mem (List.getElem_mem hk')

/-- A name of 17 characters. -/
theorem refused_long :
    Refused (fun _ => some []) ⟨.ofBytes (bytes "Personaje_del.txt"), .ofBytes []⟩
      (runWrites (fun _ => some []) (letters 15)) := by
  apply (refused_iff succeeds_letters (succeeds_letters.fullDirectory (by decide)) _).mpr
  · exact .inr (.inl (by decide))
  · exact succeeds_letters.newName (by decide) (by decide)

/-- The sixteenth letter is written over the counter. -/
theorem not_refused_full :
    ¬ ∀ (host : Host) (calls : List WriteCall) (c : WriteCall), Succeeds host calls →
      FullDirectory (runWrites host calls) → NewName (runWrites host calls) c.name →
      Refused host c (runWrites host calls) := by
  intro h
  have hfull := succeeds_letters.fullDirectory (by decide)
  have hnew : NewName (runWrites (fun _ => some []) (letters 15)) (letter 15).name :=
    succeeds_letters.newName (by decide) (by decide)
  exact not_refused_of_some succeeds_letters hfull hnew (by decide) (by decide) rfl
    (h _ _ _ succeeds_letters hfull hnew)

end Calls

end DistributedAscii.FileSystem
