import DistributedAscii.FileSystem.Reading
import DistributedAscii.Lib.Pointers

/-!
# FileSystem — the chains of the entries

The chain of an entry is its first block and the data blocks that the link
bytes lead to. As long as each entry has either the blocks of its file or a
first block that leads nowhere (`Laid`), the chain stays within the blocks
that the entry asked for, so the chains are apart; and a call that leaves
the blocks asked for as they are touches none of them.
-/

namespace DistributedAscii.FileSystem

open Lib.ByteFile Lib.Pointers Layout

/-- Where the link byte of a data block leads: 0 and 255 lead nowhere, and
behind the end of the file it reads as 0. -/
def nextBlock (disk : Disk) (b : UInt8) : Option UInt8 :=
  let link := disk.getD (b.toNat * 256 + 255) 0
  if link = 0 ∨ link = 255 then none else some link

/-- Block `b` belongs to the chain of the entry in slot `k`. -/
def OnChain (disk : Disk) (k : Nat) (b : UInt8) : Prop :=
  slotFirst disk k ≠ 0 ∧ Leads (nextBlock disk) b (slotFirst disk k)

/-- No block belongs to the chains of two entries. -/
def Apart (disk : Disk) : Prop :=
  ∀ i j b, i < 15 → j < 15 → i ≠ j → OnChain disk i b → ¬ OnChain disk j b

/-- The blocks of the entries read as they did. -/
def Untouched (disk disk' : Disk) : Prop :=
  ∀ k b, k < 15 → OnChain disk k b → readBlock disk' b.toNat = readBlock disk b.toNat

/-- Along the whole sequence the chains are apart, and no call touches the
chains that were there before it. -/
def Separate (host : Host) (calls : List WriteCall) : Prop :=
  ∀ front, front <+: calls → Apart (runWrites host front)
    ∧ ∀ c, front ++ [c] <+: calls →
      Untouched (runWrites host front) (runWrites host (front ++ [c]))

/-- Data block `i + 1`; behind the end of the file it reads as zeros. -/
def blockAt (L : Layout) (i : Nat) : Block :=
  (L.blocks[i]?).getD .zero

/-- Every entry has the blocks of its file, or a first block that leads
nowhere. -/
structure Laid (L : Layout) (fs : Files) : Prop extends Lists L fs where
  places : ∀ k (hk : k < fs.length),
    (∀ j < needed fs[k].2, blockAt L (total (fs.take k) + j)
      = fileBlock (1 + total (fs.take k)) fs[k].2 j)
    ∨ (blockAt L (total (fs.take k))).link = 0

/-! ## The chains -/

section Chains

variable {L : Layout} {fs : Files}

theorem link_succ (L : Layout) (i : Nat) : L.link (i + 1) = (blockAt L i).link := by
  rw [link, if_neg (Nat.succ_ne_zero i), Nat.add_sub_cancel, blockAt]
  cases L.blocks[i]? <;> rfl

theorem nextBlock_toBytes (b : UInt8) :
    nextBlock L.toBytes b
      = if L.link b.toNat = 0 ∨ L.link b.toNat = 255 then none else some (L.link b.toNat) := by
  rw [nextBlock, getD_link]

/-- The files before file `k` take no more than all of them. -/
theorem total_take_le (fs : Files) (k : Nat) : total (fs.take k) ≤ total fs :=
  total_mono (List.take_prefix k fs)

theorem total_take_mono (fs : Files) {i j : Nat} (h : i ≤ j) :
    total (fs.take i) ≤ total (fs.take j) :=
  total_mono (List.take_prefix_take_left h)

theorem total_append_files (fs gs : Files) : total (fs ++ gs) = total fs + total gs := by
  simp [total]

/-- Entries without a text take one block each. -/
theorem total_empty {lost : Files} (h : ∀ f ∈ lost, f.2 = []) : total lost = lost.length := by
  induction lost with
  | nil => rfl
  | cons f lost ih =>
      have hf : needed f.2 = 1 := by rw [h f (List.mem_cons_self ..)]; rfl
      have hrest := ih fun g hg => h g (List.mem_cons_of_mem f hg)
      have hsum : total (f :: lost) = needed f.2 + total lost := by simp [total]
      rw [hsum, hf, hrest, List.length_cons, Nat.add_comm]

/-- **The chain of an entry** stays in the blocks that the entry asked for. -/
theorem Laid.leads (h : Laid L fs) {k : Nat} (hk : k < fs.length) {x b : UInt8}
    (hx : x.toNat = 1 + total (fs.take k)) (hlead : Leads (nextBlock L.toBytes) b x) :
    1 + total (fs.take k) ≤ b.toNat ∧ b.toNat < 1 + total (fs.take (k + 1)) := by
  have hsucc := total_take_succ hk
  have hle := total_take_le fs (k + 1)
  have hfit := h.total_le
  have hn := needed_pos fs[k].2
  rcases h.places k hk with hplaces | hnowhere
  · -- a link byte of the file is 255 or the number of its next block
    refine hlead.mem_of_closed (S := fun y => 1 + total (fs.take k) ≤ y.toNat
      ∧ y.toNat < 1 + total (fs.take (k + 1))) ?_ (by omega)
    rintro y z ⟨hlow, hhigh⟩ hz
    have hblock := hplaces (y.toNat - 1 - total (fs.take k)) (by omega)
    have hvalue : L.link y.toNat = linkOf (1 + total (fs.take k)) fs[k].2
        (y.toNat - 1 - total (fs.take k)) := by
      rw [show y.toNat = total (fs.take k) + (y.toNat - 1 - total (fs.take k)) + 1 by omega,
        link_succ, show total (fs.take k) + (y.toNat - 1 - total (fs.take k)) + 1 - 1
          - total (fs.take k) = y.toNat - 1 - total (fs.take k) by omega, hblock]
      rfl
    rw [nextBlock_toBytes, hvalue, linkOf] at hz
    split at hz
    · rw [if_pos (.inr rfl)] at hz
      cases hz
    · rename_i hmore
      rw [length_lt_iff_needed_le] at hmore
      split at hz
      · cases hz
      · obtain rfl := Option.some.inj hz
        rw [UInt8.toNat_ofNat']
        omega
  · have hb : b = x := by
      cases hlead with
      | here => rfl
      | step hxy _ =>
          rw [nextBlock_toBytes, hx, Nat.add_comm, link_succ, hnowhere, if_pos (.inl rfl)] at hxy
          cases hxy
    rw [hb]
    omega

/-- The slots in use are those of the files. -/
theorem Lists.slotFirst_eq (h : Lists L fs) {k : Nat} (hk : k < 15)
    (hne : slotFirst L.toBytes k ≠ 0) :
    k < fs.length ∧ (slotFirst L.toBytes k).toNat = 1 + total (fs.take k) := by
  have hlt : k < L.entries.length := by
    by_contra hfree
    exact hne (L.slot_free (by omega) hk).2
  have hk' : k < fs.length := by
    rw [← h.length_entries]
    exact hlt
  obtain ⟨e, he, _, hfirst⟩ := h.getElem?_entries hk'
  rw [List.getElem?_eq_getElem hlt] at he
  rw [(L.slot_entry hlt).2, Option.some.inj he]
  exact ⟨hk', hfirst⟩

theorem Laid.onChain (h : Laid L fs) {k : Nat} {b : UInt8} (hk : k < 15)
    (hchain : OnChain L.toBytes k b) :
    1 + total (fs.take k) ≤ b.toNat ∧ b.toNat < 1 + total (fs.take (k + 1)) := by
  obtain ⟨hk', hfirst⟩ := h.slotFirst_eq hk hchain.1
  exact h.leads hk' hfirst hchain.2

/-- The intervals of different files do not meet. -/
theorem file_blocks_apart (fs : Files) {i j b : Nat} (hij : i ≠ j)
    (hi : 1 + total (fs.take i) ≤ b ∧ b < 1 + total (fs.take (i + 1)))
    (hj : 1 + total (fs.take j) ≤ b ∧ b < 1 + total (fs.take (j + 1))) : False := by
  rcases Nat.lt_or_gt_of_ne hij with h | h
  · have := total_take_mono fs (show i + 1 ≤ j from h)
    omega
  · have := total_take_mono fs (show j + 1 ≤ i from h)
    omega

theorem Laid.apart (h : Laid L fs) : Apart L.toBytes := by
  intro i j b hi hj hij hbi hbj
  exact file_blocks_apart fs hij (h.onChain hi hbi) (h.onChain hj hbj)

theorem readBlock_succ (L : Layout) (i : Nat) :
    readBlock L.toBytes (i + 1) = (blockAt L i).toBytes := by
  rw [blockAt]
  by_cases hi : i < L.blocks.length
  · rw [L.readBlock_block hi, List.getElem?_eq_getElem hi]
    rfl
  · have hnone : readAt L.toBytes ((i + 1) * 256) 256 = [] := by
      rw [readAt, List.drop_eq_nil_of_le (by rw [length_toBytes]; omega), List.take_nil]
    rw [List.getElem?_eq_none (by omega), readBlock, fread, List.length_replicate, hnone,
      List.nil_append, List.length_nil, List.drop_zero, Option.getD_none, Block.toBytes_zero]

/-- What keeps the blocks that were asked for touches no chain. -/
theorem Laid.untouched (h : Laid L fs) {L' : Layout}
    (hsame : ∀ i < total fs, blockAt L' i = blockAt L i) : Untouched L.toBytes L'.toBytes := by
  intro k b hk hchain
  have hbounds := h.onChain hk hchain
  have hle := total_take_le fs (k + 1)
  rw [show b.toNat = b.toNat - 1 + 1 by omega, readBlock_succ, readBlock_succ,
    hsame _ (by omega)]

/-- One entry more, behind the blocks that were asked for. -/
theorem Laid.snoc (h : Laid L fs) {L' : Layout} {f : CString × Bytes}
    (hlists : Lists L' (fs ++ [f])) (hsame : ∀ i < total fs, blockAt L' i = blockAt L i)
    (hplace : (∀ j < needed f.2, blockAt L' (total fs + j) = fileBlock (1 + total fs) f.2 j)
      ∨ (blockAt L' (total fs)).link = 0) : Laid L' (fs ++ [f]) where
  toLists := hlists
  places := by
    intro k hk
    by_cases hlt : k < fs.length
    · have hsucc := total_take_succ hlt
      have hle := total_take_le fs (k + 1)
      have hn := needed_pos fs[k].2
      rw [List.take_append_of_le_length (by omega), List.getElem_append_left hlt,
        hsame _ (by omega)]
      refine (h.places k hlt).imp_left fun hplaces j hj => ?_
      rw [hsame _ (by omega), hplaces j hj]
    · rw [List.length_append, List.length_singleton] at hk
      obtain rfl : k = fs.length := by omega
      rw [List.take_left, List.getElem_concat_length rfl]
      exact hplace

end Chains

end DistributedAscii.FileSystem
