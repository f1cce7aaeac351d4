import DistributedAscii.FileSystem.Exhaustion
import DistributedAscii.Lib.Runs

/-!
# FileSystem — writes that act at once

What `disk.dat` would be if no `FILE *` had a buffer: the chunk is on the
disk when the allocator looks for the next block. That makes a difference
only where the chunk goes behind a gap, since the scan would see the zeros
that fill it. On a disk on which nothing looks free and no block is ahead
of the file both writers leave the same bytes, so they do on every disk
that keeps files.
-/

namespace DistributedAscii.FileSystem

open Lib.ByteFile Lib.Runs

/-- `contentLoop` with every `fwrite` on the disk at once. -/
def contentLoopAtOnce (host : Host) (path : CString) :
    Nat → Nat → UInt8 → Disk → UInt8 × Disk
  | 0, _, _, disk => (exitFailure, disk)
  | fuel + 1, index, block, disk =>
      let chunk := extractContent host (List.replicate 255 0) path index
      let disk := fwrite disk (block.toNat * 256) chunk.2
      if chunk.1 = 2 then (exitSuccess, fwrite disk (block.toNat * 256 + 255) [255])
      else
        let r := checkBlockAvaible disk
        contentLoopAtOnce host path fuel (index + 1) r.1
          (fwrite r.2 (block.toNat * 256 + 255) [r.1])

def allocateContentAtOnce (host : Host) (firstBlock : UInt8) (path : CString) (disk : Disk) :
    UInt8 × Disk :=
  if (extractContent host (List.replicate 255 0) path 0).1 = exitFailure then
    (exitFailure, disk)
  else contentLoopAtOnce host path 255 0 firstBlock disk

def writeMountedAtOnce (host : Host) (name path : CString) (disk : Disk) : UInt8 × Disk :=
  if 16 < name.length then (exitFailure, disk)
  else if (existFile disk name).isSome then (exitFailure, disk)
  else
    let r := allocateInDirectory name disk
    allocateContentAtOnce host r.1 path r.2

def writeFileAtOnce (host : Host) (name path : CString) (store : Option Disk) :
    UInt8 × Option Disk :=
  match store with
  | none => (exitFailure, none)
  | some disk =>
      let r := writeMountedAtOnce host name path disk
      (r.1, some r.2)

def runWritesAtOnce (host : Host) (calls : List WriteCall) : Disk :=
  calls.foldl (fun disk c => (writeMountedAtOnce host c.name c.path disk).2) (mountSystem none)

namespace Layout

variable (L : Layout)

/-! ## The allocator and the chunk -/

/-- The data of a block that is there. -/
def setData (i : Nat) (data : Bytes) (h : data.length = 255) : Layout :=
  { L with
    blocks := L.blocks.modify i (Block.withData data h)
    blocks_le := by rw [List.length_modify]; exact L.blocks_le }

theorem fwrite_setData {i : Nat} (hi : i < L.blocks.length) {data : Bytes}
    (hdata : data.length = 255) :
    fwrite L.toBytes ((i + 1) * 256) data = (L.setData i data hdata).toBytes := by
  have hold : (L.blocks[i]).toBytes = [] ++ (L.blocks[i]).data ++ [(L.blocks[i]).link] := by
    rw [List.nil_append, Block.toBytes]
  have hnew : (Block.withData data hdata L.blocks[i]).toBytes
      = [] ++ data ++ [(L.blocks[i]).link] := by
    rw [List.nil_append, Block.toBytes, Block.withData]
  have h := writeAt_record Block.length_toBytes (0 : UInt8) L.directory hi hold hnew
    (by rw [hdata, (L.blocks[i]).size_data]) []
  rw [length_directory, List.append_nil, List.append_nil, List.length_nil] at h
  rw [fwrite, show (i + 1) * 256 = 256 + 256 * i + 0 by ring]
  exact h

/-- New data do not make a block look free. -/
theorem alloc_setData (hlinked : ∀ blk ∈ L.blocks, blk.link ≠ 0) (i : Nat) {data : Bytes}
    (h : data.length = 255) :
    (L.setData i data h).alloc = (L.alloc.1, L.alloc.2.setData i data h) := by
  have hfree := freeIndex_eq_none hlinked
  have hfree' : (L.setData i data h).freeIndex = none :=
    freeIndex_eq_none (linked_modify hlinked hlinked)
  by_cases hc : L.counter = 255
  · rw [alloc_of_exhausted L hfree hc, alloc_of_exhausted (L.setData i data h) hfree' hc]
  · rw [alloc_of_counter L hfree hc, alloc_of_counter (L.setData i data h) hfree' hc]
    rfl

/-- **The chunk does not matter to the allocator**, if it is not written
behind a gap and nothing looks free. -/
theorem checkBlockAvaible_chunk (hlinked : ∀ blk ∈ L.blocks, blk.link ≠ 0) {b : BlockNo}
    (hroom : b.index ≤ L.blocks.length) {data : Bytes} (h : data.length = 255) :
    checkBlockAvaible (fwrite L.toBytes (b.val.toNat * 256) data)
      = (L.alloc.1.val, fwrite L.alloc.2.toBytes (b.val.toNat * 256) data) := by
  have hlen := L.length_blocks_alloc
  rw [BlockNo.toNat_eq]
  by_cases hlt : b.index < L.blocks.length
  · have hcheck := checkBlockAvaible_toBytes (L.setData b.index data h) [] (by decide)
    rw [List.append_nil, List.append_nil, alloc_setData L hlinked] at hcheck
    rw [fwrite_setData L hlt h, fwrite_setData L.alloc.2 (by omega) h]
    exact hcheck
  · -- the chunk is the front of a block that has no link byte yet
    have hend : (b.index + 1) * 256 = L.toBytes.length := by
      rw [length_toBytes]
      omega
    have hend' : (b.index + 1) * 256 = L.alloc.2.toBytes.length := by
      rw [length_toBytes]
      omega
    have hcheck := checkBlockAvaible_toBytes L data (by omega)
    rw [← writeAt_end (0 : UInt8) L.toBytes data, ← hend] at hcheck
    rw [fwrite, hcheck, fwrite]
    conv_rhs => rw [hend', writeAt_end]

/-! ## The writer -/

/-- **Both writers leave the same bytes.** One turn keeps `Solid`, so the
allocator never sees a difference. -/
theorem Solid.contentLoopAtOnce_eq {b : BlockNo} {L : Layout} (hsolid : Solid b L)
    {host : Host} {path : CString} {content : Bytes} (hpath : host path = some content)
    (fuel index : Nat) :
    contentLoopAtOnce host path fuel index b.val L.toBytes
      = contentLoop host path fuel index b.val L.toBytes := by
  induction fuel generalizing index b L with
  | zero => rfl
  | succ fuel ih =>
      have hdata := length_chunk content index
      have hwrite : ∀ (disk : Disk) (link : UInt8),
          fwrite (fwrite disk (b.val.toNat * 256) (chunk content index))
              (b.val.toNat * 256 + 255) [link]
            = fwrite disk (b.val.toNat * 256) (chunk content index ++ [link]) := by
        intro disk link
        rw [fwrite, fwrite, fwrite, writeAt_append, hdata]
      have halloc := checkBlockAvaible_toBytes L [] (by decide)
      rw [List.append_nil, List.append_nil] at halloc
      rw [contentLoopAtOnce, contentLoop, extractContent_some hpath]
      dsimp only
      by_cases hlast : content.length < (index + 1) * 255
      · rw [if_pos hlast, if_pos rfl, if_pos rfl, hwrite]
      · have hne : exitSuccess ≠ 2 := by decide
        rw [if_neg hlast, if_neg hne, if_neg hne,
          checkBlockAvaible_chunk L hsolid.linked hsolid.room hdata, halloc, hwrite,
          fwrite_writeBlock L.alloc.2 b hdata]
        exact ih (hsolid.extend hdata) (index + 1)

variable {L}

/-- **One call** on a disk with a free slot on which nothing looks free. -/
theorem Compact.writeMountedAtOnce_eq (h : Compact L) (h15 : L.entries.length < 15)
    (host : Host) (name path : CString) :
    writeMountedAtOnce host name path L.toBytes = writeMounted host name path L.toBytes := by
  rw [writeMountedAtOnce, writeMounted]
  by_cases hlong : 16 < name.length
  · rw [if_pos hlong, if_pos hlong]
  rw [if_neg hlong, if_neg hlong]
  by_cases hthere : (existFile L.toBytes name).isSome
  · rw [if_pos hthere, if_pos hthere]
  have hpos : 0 < name.length := by
    by_contra h0
    rw [existFile_empty _ (by omega)] at hthere
    exact hthere rfl
  have h15' : L.alloc.2.entries.length < 15 := by
    rw [entries_alloc]
    exact h15
  rw [if_neg hthere, if_neg hthere,
    allocateInDirectory_toBytes L (.inl h15) hpos (Nat.le_of_not_lt hlong), enter, dif_pos h15']
  dsimp only
  rw [allocateContentAtOnce, allocateContent]
  cases hpath : host path with
  | none =>
      have hfail : (extractContent host (List.replicate 255 0) path 0).1 = exitFailure := by
        rw [extractContent, hpath]
      rw [if_pos hfail, if_pos hfail]
  | some content =>
      rw [(h.alloc.addEntry _ h15').contentLoopAtOnce_eq hpath]

end Layout

/-! ## Runs -/

open Layout

theorem Holds.compact {L : Layout} {fs : Files} (h : Holds L fs) : Compact L where
  linked := h.link_ne
  counter := .inr (by rw [h.counter, h.length_blocks, Nat.add_comm])

/-- A call on a disk that keeps files. -/
theorem Holds.writeMountedAtOnce_eq {L : Layout} {fs : Files} (h : Holds L fs)
    (h14 : fs.length ≤ 14) (host : Host) (name path : CString) :
    writeMountedAtOnce host name path L.toBytes = writeMounted host name path L.toBytes :=
  h.compact.writeMountedAtOnce_eq (by rw [h.length_entries]; omega) host name path

/-- **A run** on disks that keep files leaves the same disk either way. -/
theorem runWritesAtOnce_eq {host : Host} {calls : List WriteCall}
    (h : ∀ front, front <+: calls →
      ∃ L fs, runWrites host front = L.toBytes ∧ Holds L fs ∧ fs.length ≤ 14) :
    runWritesAtOnce host calls = runWrites host calls := by
  refine prefix_induction (P := fun front =>
    runWritesAtOnce host front = runWrites host front) ?_ ?_ calls List.prefix_rfl
  · rw [runWritesAtOnce, runWrites, List.foldl_nil, List.foldl_nil]
  · intro front c hfront hsame
    obtain ⟨L, fs, hdisk, hL, h14⟩ := h front ((List.prefix_append ..).trans hfront)
    have happend : runWritesAtOnce host (front ++ [c])
        = (writeMountedAtOnce host c.name c.path (runWritesAtOnce host front)).2 := by
      rw [runWritesAtOnce, runWritesAtOnce, List.foldl_append, List.foldl_cons, List.foldl_nil]
    rw [happend, hsame, runWrites_append, hdisk, hL.writeMountedAtOnce_eq h14]

end DistributedAscii.FileSystem
