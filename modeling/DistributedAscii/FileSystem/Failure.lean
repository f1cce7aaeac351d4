import DistributedAscii.FileSystem.FileMap
import DistributedAscii.Lib.Runs

/-!
# FileSystem — calls that fail

`writeFile` takes the directory slot, the first block and the blocks of the
chunks before it knows whether the host file can be opened and fits, and it
returns nothing of it. What decides is known before the call: `Complete`.
A call that is not complete fails and keeps its slot.
-/

namespace DistributedAscii.FileSystem

open Lib.ByteFile Lib.Runs Layout

/-- The call is rejected on its name, or its host file can be opened and is
shorter than the 255 blocks that `allocateContent` can write. -/
def Complete (host : Host) (disk : Disk) (c : WriteCall) : Prop :=
  16 < c.name.length ∨ (existFile disk c.name).isSome
    ∨ ∃ text, host c.path = some text ∧ text.length < 255 * 255

/-- If the call fails, the disk file is what it was. -/
def Atomic (host : Host) (disk : Disk) (c : WriteCall) : Prop :=
  (writeFile host c.name c.path (some disk)).1 = exitFailure →
    (writeFile host c.name c.path (some disk)).2 = some disk

/-- Some slot of the directory has no first block. -/
def FreeSlot (disk : Disk) : Prop :=
  ∃ k, k < 15 ∧ slotFirst disk k = 0

/-! ## Complete calls -/

/-- A text that ends within the blocks left is written, whatever the disk. -/
theorem contentLoop_success {host : Host} {path : CString} {text : Bytes}
    (hpath : host path = some text) {fuel index : Nat}
    (hlen : text.length < (index + fuel) * 255) (hindex : index * 255 ≤ text.length)
    (block : UInt8) (disk : Disk) :
    (contentLoop host path fuel index block disk).1 = exitSuccess := by
  induction fuel generalizing index block disk with
  | zero =>
      rw [Nat.add_zero] at hlen
      omega
  | succ fuel ih =>
      rw [contentLoop, extractContent_some hpath]
      dsimp only
      by_cases hlast : text.length < (index + 1) * 255
      · rw [if_pos hlast, if_pos rfl]
      · have hlen' : text.length < (index + 1 + fuel) * 255 := by
          rwa [Nat.add_assoc, Nat.add_comm 1 fuel]
        have hne : exitSuccess ≠ 2 := by decide
        rw [if_neg hlast, if_neg hne]
        exact ih hlen' (Nat.le_of_not_lt hlast) _ _

/-- **A complete call** succeeds or does nothing, whatever the disk. -/
theorem Complete.outcome {host : Host} {disk : Disk} {c : WriteCall}
    (h : Complete host disk c) :
    (writeMounted host c.name c.path disk).1 = exitSuccess
      ∨ writeMounted host c.name c.path disk = (exitFailure, disk) := by
  rw [writeMounted]
  by_cases hlong : 16 < c.name.length
  · exact .inr (if_pos hlong)
  by_cases hthere : (existFile disk c.name).isSome
  · right
    rw [if_neg hlong, if_pos hthere]
  · -- a new name with a text that fits cannot fail
    left
    obtain ⟨text, htext, hlen⟩ := (h.resolve_left hlong).resolve_left hthere
    have hopen : ∀ data : Bytes, (extractContent host data c.path 0).1 ≠ exitFailure := by
      intro data
      rw [extractContent_some htext]
      dsimp only
      split <;> decide
    rw [if_neg hlong, if_neg hthere]
    dsimp only
    rw [allocateContent, if_neg (hopen _)]
    exact contentLoop_success htext (by rwa [Nat.zero_add]) (by omega) _ _

/-! ## The other calls -/

/-- The writer never touches the directory of a layout. -/
theorem store_entries (content : Bytes) (fuel index : Nat) (b : BlockNo) (L : Layout) :
    (store content fuel index b L).2.entries = L.entries := by
  induction fuel generalizing index b L with
  | zero => rfl
  | succ fuel ih =>
      rw [store]
      split
      · rw [writeBlock_entries]
      · rw [ih, writeBlock_entries, entries_alloc]

/-- A text that does not end within the blocks left fails. -/
theorem store_fails {content : Bytes} {fuel index : Nat}
    (h : (index + fuel) * 255 ≤ content.length) (b : BlockNo) (L : Layout) :
    (store content fuel index b L).1 = exitFailure := by
  induction fuel generalizing index b L with
  | zero => rfl
  | succ fuel ih =>
      have hmore : ¬ content.length < (index + 1) * 255 := by omega
      rw [store, if_neg hmore]
      exact ih (by rwa [Nat.add_assoc, Nat.add_comm 1 fuel]) _ _

/-- A new name gets a slot, whatever becomes of its content. -/
theorem write_entries {L : Layout} (h15 : L.entries.length < 15) {name : CString}
    (hpos : 0 < name.length) (hle : name.length ≤ 16) (hfind : L.find name = none)
    (content : Option Bytes) :
    (L.write name content).2.entries = L.entries ++ [⟨name, L.alloc.1, hpos, hle⟩] := by
  have h15' : L.alloc.2.entries.length < 15 := by
    rw [entries_alloc]
    exact h15
  have henter : (L.alloc.2.enter name L.alloc.1 hpos hle).entries
      = L.entries ++ [⟨name, L.alloc.1, hpos, hle⟩] := by
    rw [enter, dif_pos h15', ← entries_alloc L]
    rfl
  cases content with
  | none => rw [write_none L hpos hle hfind, henter]
  | some content => rw [write_some L hpos hle hfind, store_entries, henter]

/-- The first free slot tells layouts with different directories apart. -/
theorem toBytes_ne {L L' : Layout} (h15 : L.entries.length < 15)
    (hlt : L.entries.length < L'.entries.length) : L'.toBytes ≠ L.toBytes := by
  intro heq
  apply L'.slotFirst_entry_ne hlt
  rw [heq]
  exact (L.slot_free (Nat.le_refl _) h15).2

theorem freeSlot_toBytes {L : Layout} : FreeSlot L.toBytes ↔ L.entries.length < 15 := by
  constructor
  · rintro ⟨k, hk, hfree⟩
    by_contra hfull
    exact L.slotFirst_entry_ne (by omega) hfree
  · intro h15
    exact ⟨L.entries.length, h15, (L.slot_free (Nat.le_refl _) h15).2⟩

/-- **Any other call** fails and keeps the slot it took. -/
theorem not_atomic_of_not_complete {L : Layout} (h15 : L.entries.length < 15) {host : Host}
    {c : WriteCall} (h : ¬ Complete host L.toBytes c) : ¬ Atomic host L.toBytes c := by
  rw [Complete, not_or, not_or] at h
  obtain ⟨hlong, hthere, htext⟩ := h
  have hpos : 0 < c.name.length := by
    by_contra h0
    -- the empty name would have been found
    rw [existFile_empty _ (by omega)] at hthere
    exact hthere rfl
  have hle : c.name.length ≤ 16 := by omega
  have hfind : L.find c.name = none := by
    rw [existFile_toBytes L hpos] at hthere
    simpa using hthere
  have hfail : (L.write c.name (host c.path)).1 = exitFailure := by
    cases hpath : host c.path with
    | none => rw [write_none L hpos hle hfind]
    | some text =>
        rw [write_some L hpos hle hfind]
        apply store_fails
        by_contra hlen
        exact htext ⟨text, hpath, by omega⟩
  intro hatomic
  rw [Atomic, writeFile, writeMounted_toBytes L (.inl h15)] at hatomic
  apply toBytes_ne h15 _ (Option.some.inj (hatomic hfail))
  rw [write_entries h15 hpos hle hfind, List.length_append]
  exact Nat.lt_succ_self _

/-! ## Runs -/

/-- As long as the directory was never full, the disk is one of a layout. -/
theorem layout_of_freeSlot {host : Host} {calls : List WriteCall}
    (h : ∀ front, front <+: calls → FreeSlot (runWrites host front)) :
    ∃ L : Layout, runWrites host calls = L.toBytes ∧ L.entries.length < 15 := by
  refine prefix_induction (P := fun front =>
    ∃ L : Layout, runWrites host front = L.toBytes ∧ L.entries.length < 15) ?_ ?_ calls
    List.prefix_rfl
  · exact ⟨.fresh, toBytes_fresh.symm, by decide⟩
  · intro front c hfront ⟨L, hdisk, h15⟩
    have hlast := h _ hfront
    rw [runWrites_append, hdisk, writeMounted_toBytes L (.inl h15)] at hlast ⊢
    exact ⟨_, rfl, freeSlot_toBytes.mp hlast⟩

/-- **When a failed call leaves the disk alone**: always if the call is
complete, and, while the directory has a free slot, only then. -/
theorem write_atomic_iff (host : Host) (calls : List WriteCall) (c : WriteCall) :
    (Complete host (runWrites host calls) c → Atomic host (runWrites host calls) c)
    ∧ ((∀ front, front <+: calls → FreeSlot (runWrites host front)) →
      (Atomic host (runWrites host calls) c ↔ Complete host (runWrites host calls) c)) := by
  have hforward : Complete host (runWrites host calls) c →
      Atomic host (runWrites host calls) c := by
    intro hc hfail
    rw [writeFile] at hfail ⊢
    rcases hc.outcome with hok | hsame
    · rw [hok] at hfail
      exact absurd hfail (by decide)
    · rw [hsame]
  refine ⟨hforward, fun hfree => ⟨?_, hforward⟩⟩
  obtain ⟨L, hdisk, h15⟩ := layout_of_freeSlot hfree
  rw [hdisk]
  intro hatomic
  by_contra hc
  exact not_atomic_of_not_complete h15 hc hatomic

/-- A host file that cannot be opened, on a new disk: `EXIT_FAILURE`, and
the first slot is taken. -/
theorem write_not_atomic :
    ¬ ∀ (host : Host) (calls : List WriteCall) (c : WriteCall),
      Atomic host (runWrites host calls) c := by
  intro h
  have hatomic := h (fun _ => none) [] ⟨.ofBytes (bytes "a"), .ofBytes []⟩
  rw [show runWrites (fun _ => none) [] = Layout.fresh.toBytes from toBytes_fresh.symm]
    at hatomic
  refine not_atomic_of_not_complete (by decide) ?_ hatomic
  rintro (hlong | hthere | ⟨text, htext, _⟩)
  · exact absurd hlong (by decide)
  · rw [existFile_toBytes _ (by decide)] at hthere
    exact absurd hthere (by decide)
  · cases htext

end DistributedAscii.FileSystem
