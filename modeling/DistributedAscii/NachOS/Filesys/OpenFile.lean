import DistributedAscii.NachOS.Filesys.FileHeader

/-!
# NachOS — open files

`filesys/openfile.cc`, the implementation over the disk: a file is its
header in memory and a position. `ReadAt` and `WriteAt` take any range of
bytes and move whole sectors; `WriteAt` first reads the sectors that it
changes in part.

For a sound header the file is a list of bytes of a fixed size
(`FileHeader.contents`), `ReadAt` reads from it (`ReadAt_eq`) and `WriteAt`
is a `splice` that touches no sector but those of the file
(`WriteAt_spec`), whatever the alignment and whatever was in the buffer.
-/

namespace DistributedAscii.NachOS.Filesys

open Lib Lib.Blocks

namespace FileHeader

/-- `ReadSector(hdr->ByteToSector(i * SectorSize), …)` for `n` sectors from
`first` on, into one buffer. -/
def readSectors (hdr : FileHeader) (disk : Disk) (first : Nat) : Nat → Option (List Byte)
  | 0 => some []
  | n + 1 => do
      let sectorNumber ← hdr.ByteToSector (first * SectorSize)
      let sector ← disk.ReadSector sectorNumber
      let rest ← hdr.readSectors disk (first + 1) n
      some (sector.bytes ++ rest)

/-- The same for `WriteSector`. -/
def writeSectors (hdr : FileHeader) (disk : Disk) (first : Nat) (buf : List Byte) :
    Nat → Option Disk
  | 0 => some disk
  | n + 1 => do
      let sectorNumber ← hdr.ByteToSector (first * SectorSize)
      let disk ← disk.WriteSector sectorNumber (.ofBytes buf)
      hdr.writeSectors disk (first + 1) (buf.drop SectorSize) n

end FileHeader

structure OpenFile where
  hdr : FileHeader
  seekPosition : Int

namespace OpenFile

/-- `OpenFile::OpenFile(int sector)`. -/
def new (disk : Disk) (sector : Int) : Option OpenFile :=
  (FileHeader.FetchFrom disk sector).map fun hdr => { hdr, seekPosition := 0 }

def Length (file : OpenFile) : Int :=
  file.hdr.FileLength

def Seek (file : OpenFile) (position : Int) : OpenFile :=
  { file with seekPosition := position }

/-- What is left of a request in front of the end of the file. -/
def clip (file : OpenFile) (numBytes position : Int) : Int :=
  if file.Length < position + numBytes then file.Length - position else numBytes

/-- The sum of the two has to be an `int`. -/
def ReadAt (file : OpenFile) (disk : Disk) (numBytes position : Int) : Option (List Byte) :=
  if numBytes ≤ 0 ∨ file.Length ≤ position then some []
  else if position < 0 ∨ 2 ^ 31 ≤ position + numBytes then none
  else
    let numBytes := (file.clip numBytes position).toNat
    let position := position.toNat
    let firstSector := position / SectorSize
    let lastSector := (position + numBytes - 1) / SectorSize
    let numSectors := 1 + lastSector - firstSector
    (file.hdr.readSectors disk firstSector numSectors).map fun buf =>
      (buf.drop (position - firstSector * SectorSize)).take numBytes

/-- `ReadAt(&buf[pos], SectorSize, sector * SectorSize)`. -/
def readInto (file : OpenFile) (disk : Disk) (buf : List Byte) (sector pos : Nat) :
    Option (List Byte) :=
  (file.ReadAt disk SectorSize (sector * SectorSize : Nat)).map (ByteFile.writeAt 0 buf pos)

/-- The first and the last sector are read if they are to be modified in
part. -/
def readEnds (file : OpenFile) (disk : Disk) (buf : List Byte) (firstSector lastSector : Nat)
    (firstAligned lastAligned : Prop) [Decidable firstAligned] [Decidable lastAligned] :
    Option (List Byte) := do
  let buf ← if firstAligned then some buf
    else file.readInto disk buf firstSector 0
  if ¬lastAligned ∧ (firstSector ≠ lastSector ∨ firstAligned) then
    file.readInto disk buf lastSector ((lastSector - firstSector) * SectorSize)
  else some buf

/-- `junk` is what `new char[…]` finds in the buffer; `source` is the memory
behind the argument `from`. -/
def WriteAt (file : OpenFile) (disk : Disk) (junk : Nat → Byte) (source : List Byte)
    (numBytes position : Int) : Option (Disk × Int) :=
  if numBytes ≤ 0 ∨ file.Length ≤ position then some (disk, 0)
  else if position < 0 ∨ 2 ^ 31 ≤ position + numBytes then none
  else
    let numBytes := (file.clip numBytes position).toNat
    let position := position.toNat
    let firstSector := position / SectorSize
    let lastSector := (position + numBytes - 1) / SectorSize
    let numSectors := 1 + lastSector - firstSector
    let buf := (List.range (numSectors * SectorSize)).map junk
    let firstAligned := position = firstSector * SectorSize
    let lastAligned := position + numBytes = (lastSector + 1) * SectorSize
    if source.length < numBytes then none
    else do
      let buf ← file.readEnds disk buf firstSector lastSector firstAligned lastAligned
      let buf := ByteFile.writeAt 0 buf (position - firstSector * SectorSize)
        (source.take numBytes)
      let disk ← file.hdr.writeSectors disk firstSector buf numSectors
      some (disk, numBytes)

/-- `OpenFile::Read`: from `seekPosition` on, which moves. -/
def Read (file : OpenFile) (disk : Disk) (numBytes : Int) : Option (OpenFile × List Byte) :=
  (file.ReadAt disk numBytes file.seekPosition).map fun bytes =>
    ({ file with seekPosition := file.seekPosition + bytes.length }, bytes)

/-- `OpenFile::Write`. -/
def Write (file : OpenFile) (disk : Disk) (junk : Nat → Byte) (source : List Byte)
    (numBytes : Int) : Option (OpenFile × Disk × Int) :=
  (file.WriteAt disk junk source numBytes file.seekPosition).map fun (disk, result) =>
    ({ file with seekPosition := file.seekPosition + result }, disk, result)

end OpenFile

/-! ## The bytes of a file -/

namespace FileHeader

variable {hdr : FileHeader} {disk disk' : Disk}

/-- The number of the `i`-th sector. -/
def sectorAt (hdr : FileHeader) (i : Nat) : Nat :=
  (hdr.dataSectors.getD i 0).toInt.toNat

def block (hdr : FileHeader) (disk : Disk) (i : Nat) : List Byte :=
  (disk (hdr.sectorAt i)).bytes

def size (hdr : FileHeader) : Nat :=
  hdr.numBytes.toInt.toNat

/-- The file as a list of bytes. -/
def contents (hdr : FileHeader) (disk : Disk) : List Byte :=
  (List.range hdr.size).map (cell 0 SectorSize (hdr.block disk))

/-- The data sectors of the file. -/
def sectors (hdr : FileHeader) : List Nat :=
  (hdr.dataSectors.take hdr.numSectors.toInt.toNat).map fun sector => sector.toInt.toNat

/-- As many sectors of the disk as the length needs, all distinct. -/
structure Sound (hdr : FileHeader) : Prop where
  count : hdr.numSectors.toInt = divRoundUp hdr.numBytes.toInt SectorSize
  fits : hdr.numSectors.toInt ≤ NumDirect
  onDisk : ∀ sector ∈ hdr.dataSectors.take hdr.numSectors.toInt.toNat, OnDisk sector.toInt
  nodup : hdr.sectors.Nodup

@[simp] theorem length_contents : (hdr.contents disk).length = hdr.size := by
  simp [contents]

theorem getD_contents {k : Nat} (hk : k < hdr.size) :
    (hdr.contents disk).getD k 0 = cell 0 SectorSize (hdr.block disk) k := by
  rw [contents, List.getD_eq_getElem _ _ (by simpa using hk), List.getElem_map, List.getElem_range]

@[simp] theorem length_block (i : Nat) : (hdr.block disk i).length = SectorSize :=
  (disk (hdr.sectorAt i)).size

namespace Sound

variable {i k : Nat}

theorem length_sectors (h : hdr.Sound) : hdr.sectors.length = hdr.numSectors.toInt.toNat := by
  have hfits := h.fits
  rw [sectors, List.length_map, List.length_take, hdr.numDirect]
  omega

/-- A byte of the file is in one of its sectors. -/
theorem div_lt (h : hdr.Sound) (hk : k < hdr.size) :
    k / SectorSize < hdr.numSectors.toInt.toNat := by
  have hsize : hdr.numBytes.toInt = hdr.size := by
    rw [size] at hk ⊢
    omega
  rw [h.count, hsize]
  exact div_lt_divRoundUp (by decide) hk

theorem getElem?_dataSectors (h : hdr.Sound) (hi : i < hdr.numSectors.toInt.toNat) :
    ∃ sector : Int32, hdr.dataSectors[i]? = some sector ∧ OnDisk sector.toInt ∧
      hdr.sectorAt i = sector.toInt.toNat := by
  have hfits := h.fits
  have hlength := hdr.numDirect
  have hi' : i < hdr.dataSectors.length := by omega
  refine ⟨hdr.dataSectors[i], List.getElem?_eq_getElem hi', h.onDisk _ ?_, ?_⟩
  · rw [List.mem_take_iff_getElem]
    exact ⟨i, by omega, rfl⟩
  · rw [sectorAt, List.getD_eq_getElem _ _ hi']

theorem sectors_getElem? (h : hdr.Sound) (hi : i < hdr.numSectors.toInt.toNat) :
    hdr.sectors[i]? = some (hdr.sectorAt i) := by
  obtain ⟨sector, hsector, -, hat⟩ := h.getElem?_dataSectors hi
  rw [sectors, List.getElem?_map, List.getElem?_take, if_pos hi, hsector, hat]
  rfl

theorem sectorAt_mem (h : hdr.Sound) (hi : i < hdr.numSectors.toInt.toNat) :
    hdr.sectorAt i ∈ hdr.sectors :=
  List.mem_of_getElem? (h.sectors_getElem? hi)

theorem sectorAt_inj (h : hdr.Sound) {j : Nat} (hi : i < hdr.numSectors.toInt.toNat)
    (hj : j < hdr.numSectors.toInt.toNat) (heq : hdr.sectorAt i = hdr.sectorAt j) : i = j := by
  refine (List.getElem?_inj (by rwa [h.length_sectors]) h.nodup).mp ?_
  rw [h.sectors_getElem? hi, h.sectors_getElem? hj, heq]

/-- `ByteToSector` of an offset at a sector's border. -/
theorem ByteToSector_eq (h : hdr.Sound) (hi : i < hdr.numSectors.toInt.toNat) :
    ∃ sector : Int, hdr.ByteToSector (i * SectorSize) = some sector ∧ OnDisk sector ∧
      sector.toNat = hdr.sectorAt i := by
  obtain ⟨sector, hsector, hdisk, hat⟩ := h.getElem?_dataSectors hi
  refine ⟨sector.toInt, ?_, hdisk, hat.symm⟩
  rw [ByteToSector, Nat.mul_div_cancel _ (by decide), hsector]
  rfl

/-- The read loop gathers the sectors. -/
theorem readSectors_eq (h : hdr.Sound) (disk : Disk) {first n : Nat}
    (hn : first + n ≤ hdr.numSectors.toInt.toNat) :
    hdr.readSectors disk first n = some (gather (hdr.block disk) first n) := by
  induction n generalizing first with
  | zero => rfl
  | succ n ih =>
      obtain ⟨sector, hsector, hdisk, hat⟩ := h.ByteToSector_eq (i := first) (by omega)
      have hread : disk.ReadSector sector = some (disk (hdr.sectorAt first)) := by
        rw [Disk.ReadSector, if_pos hdisk, hat]
      rw [readSectors, hsector, Option.bind_eq_bind, Option.bind_some, hread, Option.bind_eq_bind,
        Option.bind_some, ih (by omega)]
      rfl

/-- The write loop: the sectors from `first` on get the blocks of the buffer. -/
theorem writeSectors_eq (h : hdr.Sound) (disk : Disk) (first : Nat) (buf : List Byte) {n : Nat}
    (hn : first + n ≤ hdr.numSectors.toInt.toNat) :
    ∃ disk', hdr.writeSectors disk first buf n = some disk' ∧
      (∀ i < n, disk' (hdr.sectorAt (first + i)) = .ofBytes (buf.drop (i * SectorSize))) ∧
      (∀ s, (∀ i < n, s ≠ hdr.sectorAt (first + i)) → disk' s = disk s) := by
  induction n generalizing disk first buf with
  | zero => exact ⟨disk, rfl, fun i hi => absurd hi (by omega), fun s _ => rfl⟩
  | succ n ih =>
      obtain ⟨sector, hsector, hdisk, hat⟩ := h.ByteToSector_eq (i := first) (by omega)
      have hwrite : disk.WriteSector sector (.ofBytes buf)
          = some (Function.update disk (hdr.sectorAt first) (.ofBytes buf)) := by
        rw [Disk.WriteSector, if_pos hdisk, hat]
      obtain ⟨disk', hrest, hin, hout⟩ :=
        ih (Function.update disk (hdr.sectorAt first) (.ofBytes buf)) (first + 1)
          (buf.drop SectorSize) (by omega)
      refine ⟨disk', ?_, ?_, ?_⟩
      · rw [writeSectors, hsector, Option.bind_eq_bind, Option.bind_some, hwrite,
          Option.bind_eq_bind, Option.bind_some, hrest]
      · intro i hi
        cases i with
        | zero =>
            -- the later sectors are other ones
            rw [Nat.add_zero, hout, Function.update_self, Nat.zero_mul, List.drop_zero]
            intro j hj heq
            have := h.sectorAt_inj (by omega) (by omega) heq
            omega
        | succ i =>
            have hi' := hin i (by omega)
            rw [List.drop_drop] at hi'
            rw [Nat.succ_mul, Nat.add_comm (i * SectorSize), ← hi']
            congr 2
            omega
      · intro s hs
        rw [hout s, Function.update_of_ne]
        · exact hs 0 (by omega)
        · intro i hi
          have := hs (i + 1) (by omega)
          rwa [Nat.add_assoc, Nat.add_comm 1]

/-- What the write loop leaves of the file, byte by byte. -/
theorem writeSectors_cell (h : hdr.Sound) (disk : Disk) (first : Nat) {buf : List Byte} {n : Nat}
    (hn : first + n ≤ hdr.numSectors.toInt.toNat) (hbuf : buf.length = n * SectorSize) :
    ∃ disk', hdr.writeSectors disk first buf n = some disk' ∧
      (∀ k < hdr.size, cell 0 SectorSize (hdr.block disk') k =
        if first * SectorSize ≤ k ∧ k < (first + n) * SectorSize then
          buf.getD (k - first * SectorSize) 0
        else cell 0 SectorSize (hdr.block disk) k) ∧
      ∀ s ∉ hdr.sectors, disk' s = disk s := by
  obtain ⟨disk', hwrite, hin, hout⟩ := h.writeSectors_eq disk first buf hn
  refine ⟨disk', hwrite, fun k hk => ?_, fun s hs => hout s fun i hi heq => hs ?_⟩
  · have hdiv := h.div_lt hk
    refine cell_scatter 0 (by decide) (fun i hi => ?_) fun hoff => ?_
    · rw [block, hin i hi, Sector.bytes_ofBytes, blockAt]
      rw [List.length_drop, hbuf, ← Nat.sub_mul]
      exact Nat.le_mul_of_pos_left _ (by omega)
    · rw [block, block, hout]
      intro i hi heq
      have := h.sectorAt_inj hdiv (by omega) heq
      omega
  · rw [heq]
    exact h.sectorAt_mem (by omega)

end Sound

/-- The bytes are in the sectors of the file. -/
theorem contents_congr (h : hdr.Sound)
    (hsame : ∀ s ∈ hdr.sectors, disk' s = disk s) : hdr.contents disk' = hdr.contents disk := by
  refine List.map_congr_left fun k hk => ?_
  have hk : k / SectorSize < hdr.numSectors.toInt.toNat := h.div_lt (List.mem_range.mp hk)
  rw [cell, cell, FileHeader.block, FileHeader.block, hsame _ (h.sectorAt_mem hk)]

end FileHeader

namespace OpenFile

variable {file : OpenFile} {disk : Disk} {numBytes position : Int}

/-- A range of the file, cell by cell. -/
theorem readAt_contents (hdr : FileHeader) (disk : Disk) (pos n : Nat) :
    ByteFile.readAt (hdr.contents disk) pos n =
      (List.range (min n (hdr.size - pos))).map fun j =>
        cell 0 SectorSize (hdr.block disk) (pos + j) := by
  apply List.ext_getElem?
  intro j
  rw [ByteFile.readAt, FileHeader.contents, List.getElem?_take, List.getElem?_drop,
    List.getElem?_map, List.getElem?_map]
  by_cases hj : j < min n (hdr.size - pos)
  · rw [if_pos (by omega), List.getElem?_range (by omega), List.getElem?_range hj]
    rfl
  · have hnone : (List.range (min n (hdr.size - pos)))[j]? = none :=
      List.getElem?_eq_none (by rw [List.length_range]; omega)
    rw [hnone, Option.map_none]
    split
    · rw [List.getElem?_eq_none (by rw [List.length_range]; omega), Option.map_none]
    · rfl

/-- A request that is carried out, in numbers of bytes and sectors. -/
structure Carried (file : OpenFile) (numBytes position : Int) (pos n first last : Nat) :
    Prop where
  pos_eq : position.toNat = pos
  n_eq : (file.clip numBytes position).toNat = n
  first_eq : pos / SectorSize = first
  last_eq : (pos + n - 1) / SectorSize = last
  count : n = min numBytes.toNat (file.hdr.size - pos)
  inside : 0 < n ∧ pos + n ≤ file.hdr.size
  firstLe : first * SectorSize ≤ pos ∧ pos < (first + 1) * SectorSize
  lastLe : last * SectorSize < pos + n ∧ pos + n ≤ (last + 1) * SectorSize
  le : first ≤ last

theorem carried (hsome : 0 < numBytes) (hbefore : position < file.Length) (hpos : 0 ≤ position) :
    ∃ pos n first last, file.Carried numBytes position pos n first last := by
  have hlength : file.Length = file.hdr.size := by
    have hdef : file.Length = file.hdr.numBytes.toInt := rfl
    rw [FileHeader.size]
    omega
  have hn : (file.clip numBytes position).toNat
      = min numBytes.toNat (file.hdr.size - position.toNat) := by
    rw [clip]
    split <;> omega
  refine ⟨position.toNat, _, _, _, rfl, rfl, rfl, rfl, hn, ?_, ?_, ?_, ?_⟩
  · omega
  · constructor
    · exact Nat.div_mul_le_self ..
    · rw [Nat.mul_comm]
      exact Nat.lt_mul_div_succ _ (by decide)
  · have hle := Nat.div_mul_le_self (position.toNat + (file.clip numBytes position).toNat - 1)
      SectorSize
    have hlt := Nat.lt_mul_div_succ (position.toNat + (file.clip numBytes position).toNat - 1)
      (show 0 < SectorSize by decide)
    rw [Nat.mul_comm] at hlt
    omega
  · exact Nat.div_le_div_right (by omega)

variable {pos n first last : Nat}

theorem Carried.last_lt (h : file.Carried numBytes position pos n first last)
    (hs : file.hdr.Sound) : last < file.hdr.numSectors.toInt.toNat := by
  have hinside := h.inside
  rw [← h.last_eq]
  exact hs.div_lt (by omega)

/-- In front of the range, in the same sector. -/
theorem Carried.div_front (h : file.Carried numBytes position pos n first last) {k : Nat}
    (hk : first * SectorSize ≤ k) (hfront : k < pos) : k / SectorSize = first :=
  Nat.div_eq_of_lt_le hk (hfront.trans h.firstLe.2)

/-- Behind the range, in the same sector. -/
theorem Carried.div_back (h : file.Carried numBytes position pos n first last) {k : Nat}
    (hback : pos + n ≤ k) (hk : k < (last + 1) * SectorSize) : k / SectorSize = last :=
  Nat.div_eq_of_lt_le (h.lastLe.1.le.trans hback) hk

/-- **`ReadAt` reads the file**, wherever the range lies in the sectors. -/
theorem ReadAt_eq (h : file.hdr.Sound) (disk : Disk) (hpos : 0 ≤ position)
    (hsum : position + numBytes < 2 ^ 31) :
    file.ReadAt disk numBytes position
      = some (ByteFile.readAt (file.hdr.contents disk) position.toNat numBytes.toNat) := by
  rw [ReadAt]
  split
  case isTrue hnone =>
    rw [readAt_contents]
    have hlength : file.Length = file.hdr.numBytes.toInt := rfl
    have hzero : min numBytes.toNat (file.hdr.size - position.toNat) = 0 := by
      rw [FileHeader.size]
      omega
    rw [hzero]
    rfl
  case isFalse hsome =>
    obtain ⟨pos, n, first, last, hc⟩ :
        ∃ pos n first last, file.Carried numBytes position pos n first last :=
      file.carried (by omega) (by omega) hpos
    have hlast := hc.last_lt h
    have hle := hc.le
    have hend := hc.lastLe.2
    rw [if_neg (by omega)]
    simp only [hc.pos_eq, hc.n_eq, hc.first_eq, hc.last_eq]
    rw [h.readSectors_eq disk (by omega), Option.map_some, readAt_contents, ← hc.count,
      window_gather 0 (fun _ => FileHeader.length_block _) hc.firstLe.1]
    rw [show first + (1 + last - first) = last + 1 by omega]
    exact hend

/-- Sector `i` read to its place in a buffer for the sectors from `first` to
`last`: the bytes of the file are there, and the rest of the buffer stays. -/
theorem readInto_eq (h : file.hdr.Sound) (disk : Disk) {buf : List Byte} {i : Nat}
    (hbuf : buf.length = (1 + last - first) * SectorSize) (hi : first ≤ i ∧ i ≤ last)
    (hlast : last < file.hdr.numSectors.toInt.toNat) :
    ∃ buf', file.readInto disk buf i ((i - first) * SectorSize) = some buf' ∧
      buf'.length = buf.length ∧
      (∀ k, first * SectorSize ≤ k → k / SectorSize ≠ i →
        buf'.getD (k - first * SectorSize) 0 = buf.getD (k - first * SectorSize) 0) ∧
      ∀ k, k / SectorSize = i → k < file.hdr.size →
        buf'.getD (k - first * SectorSize) 0 = cell 0 SectorSize (file.hdr.block disk) k := by
  have hsmall : i * SectorSize + SectorSize < 2 ^ 31 := by
    have hfits := h.fits
    simp only [SectorSize, NumDirect] at *
    omega
  have hread : file.ReadAt disk SectorSize (i * SectorSize : Nat) = some _ :=
    file.ReadAt_eq h disk (by omega) (by omega)
  rw [Int.toNat_natCast, Int.toNat_natCast, readAt_contents] at hread
  obtain ⟨bytes, hbytes⟩ : ∃ bytes, bytes =
      (List.range (min SectorSize (file.hdr.size - i * SectorSize))).map fun j =>
        cell 0 SectorSize (file.hdr.block disk) (i * SectorSize + j) := ⟨_, rfl⟩
  rw [← hbytes] at hread
  have hlength : bytes.length = min SectorSize (file.hdr.size - i * SectorSize) := by
    rw [hbytes, List.length_map, List.length_range]
  have hplace : (i - first) * SectorSize + first * SectorSize = i * SectorSize := by
    rw [← Nat.add_mul, Nat.sub_add_cancel hi.1]
  have hroom : (i - first) * SectorSize + SectorSize ≤ buf.length := by
    rw [hbuf, ← Nat.succ_mul]
    exact Nat.mul_le_mul_right _ (by omega)
  refine ⟨ByteFile.writeAt 0 buf ((i - first) * SectorSize) bytes,
    by rw [readInto, hread, Option.map_some], length_writeAt 0 (by omega), ?_, ?_⟩
  · intro k hk hne
    rw [getD_writeAt 0 (by omega), if_neg]
    rintro ⟨hlow, hhigh⟩
    exact hne (Nat.div_eq_of_lt_le (by omega) (by rw [Nat.succ_mul]; omega))
  · intro k hk hsize
    have hlow : i * SectorSize ≤ k := hk ▸ Nat.div_mul_le_self k SectorSize
    have hhigh : k < i * SectorSize + SectorSize := by
      rw [← hk, ← Nat.succ_mul, Nat.mul_comm]
      exact Nat.lt_mul_div_succ k (by decide)
    rw [getD_writeAt 0 (by omega), if_pos (by omega), List.getD_eq_getElem _ _ (by omega)]
    simp only [hbytes, List.getElem_map, List.getElem_range]
    congr 1
    omega

/-- The sectors that are changed in part have been read where the range does
not cover them. -/
theorem readEnds_eq (h : file.hdr.Sound) (disk : Disk)
    (hc : file.Carried numBytes position pos n first last) {buf : List Byte}
    (hbuf : buf.length = (1 + last - first) * SectorSize) :
    ∃ buf', file.readEnds disk buf first last (pos = first * SectorSize)
        (pos + n = (last + 1) * SectorSize) = some buf' ∧ buf'.length = buf.length ∧
      ∀ k, first * SectorSize ≤ k → k < (last + 1) * SectorSize → k < file.hdr.size →
        (k < pos ∨ pos + n ≤ k) →
        buf'.getD (k - first * SectorSize) 0 = cell 0 SectorSize (file.hdr.block disk) k := by
  have hlast := hc.last_lt h
  have hle := hc.le
  by_cases haligned : pos = first * SectorSize
  · -- nothing in front of the range
    simp only [readEnds, if_pos haligned, Option.bind_eq_bind, Option.bind_some]
    by_cases hlastAligned : pos + n = (last + 1) * SectorSize
    · rw [if_neg (by simp [hlastAligned])]
      exact ⟨buf, rfl, rfl, fun k _ _ _ hk => by omega⟩
    · rw [if_pos ⟨hlastAligned, .inr haligned⟩]
      obtain ⟨buf', hread, hlength, -, hcells⟩ :=
        file.readInto_eq h disk hbuf ⟨hle, Nat.le_refl last⟩ hlast
      refine ⟨buf', hread, hlength, fun k hk hk' hsize hout => hcells k ?_ hsize⟩
      exact hc.div_back (by omega) hk'
  · simp only [readEnds, if_neg haligned]
    obtain ⟨buf₁, hread₁, hlength₁, -, hcells₁⟩ :=
      file.readInto_eq h disk hbuf ⟨Nat.le_refl first, hle⟩ hlast
    rw [Nat.sub_self, Nat.zero_mul] at hread₁
    rw [hread₁, Option.bind_eq_bind, Option.bind_some]
    by_cases hboth : ¬pos + n = (last + 1) * SectorSize ∧ (first ≠ last ∨ pos = first * SectorSize)
    · rw [if_pos hboth]
      obtain ⟨buf₂, hread₂, hlength₂, hkeep₂, hcells₂⟩ :=
        file.readInto_eq h disk (hlength₁.trans hbuf) ⟨hle, Nat.le_refl last⟩ hlast
      refine ⟨buf₂, hread₂, hlength₂.trans hlength₁, fun k hk hk' hsize hout => ?_⟩
      by_cases hin : k / SectorSize = last
      · exact hcells₂ k hin hsize
      · have hfront : k < pos := hout.resolve_right fun hback => hin (hc.div_back hback hk')
        rw [hkeep₂ k hk hin]
        exact hcells₁ k (hc.div_front hk hfront) hsize
    · rw [if_neg hboth]
      refine ⟨buf₁, rfl, hlength₁, fun k hk hk' hsize hout => hcells₁ k ?_ hsize⟩
      rcases hout with hfront | hback
      · exact hc.div_front hk hfront
      · -- behind the range only if the last sector is the first one
        have hsame : first = last := by
          by_contra hne
          have hlastAligned : pos + n = (last + 1) * SectorSize := by
            by_contra hnot
            exact hboth ⟨hnot, .inl hne⟩
          omega
        rw [hsame]
        exact hc.div_back hback hk'

/-- **`WriteAt` is a splice**: the range is replaced as far as the file goes,
every other byte of the file stays, and so does every sector that is not
one of the file's. -/
theorem WriteAt_spec (h : file.hdr.Sound) (disk : Disk) (junk : Nat → Byte) {source : List Byte}
    (hpos : 0 ≤ position) (hsum : position + numBytes < 2 ^ 31)
    (hsource : numBytes ≤ source.length) :
    ∃ disk', file.WriteAt disk junk source numBytes position
        = some (disk', ((min numBytes.toNat (file.hdr.size - position.toNat) : Nat) : Int)) ∧
      file.hdr.contents disk'
        = splice (file.hdr.contents disk) position.toNat (source.take numBytes.toNat) ∧
      ∀ s ∉ file.hdr.sectors, disk' s = disk s := by
  have hlength : file.Length = file.hdr.numBytes.toInt := rfl
  rw [WriteAt]
  split
  case isTrue hnone =>
    -- nothing is written for an empty range or behind the end of the file
    have hzero : min numBytes.toNat (file.hdr.size - position.toNat) = 0 := by
      rw [FileHeader.size]
      omega
    refine ⟨disk, by rw [hzero]; rfl, ?_, fun s _ => rfl⟩
    refine eq_splice 0 (by simp) fun k hk => ?_
    rw [FileHeader.length_contents] at hk
    rw [if_neg]
    rw [List.length_take]
    omega
  case isFalse hsome =>
    obtain ⟨pos, n, first, last, hc⟩ :
        ∃ pos n first last, file.Carried numBytes position pos n first last :=
      file.carried (by omega) (by omega) hpos
    have hcount := hc.count
    have hlast := hc.last_lt h
    have hle := hc.le
    have hinside := hc.inside
    obtain ⟨hfirst, hfirst'⟩ := hc.firstLe
    obtain ⟨hend, hend'⟩ := hc.lastLe
    have hnum : first + (1 + last - first) = last + 1 := by omega
    have hroom : (1 + last - first) * SectorSize
        = (last + 1) * SectorSize - first * SectorSize := by
      rw [← Nat.sub_mul]
      congr 1
      omega
    rw [if_neg (by omega)]
    simp only [hc.pos_eq, hc.n_eq, hc.first_eq, hc.last_eq]
    rw [if_neg (by omega)]
    have hnew : (source.take n).length = n := by
      rw [List.length_take]
      omega
    have hjunk : ((List.range ((1 + last - first) * SectorSize)).map junk).length
        = (1 + last - first) * SectorSize := by
      rw [List.length_map, List.length_range]
    -- the buffer has what is in the file before the range and behind it
    obtain ⟨buf, hends, hbuf, hcells⟩ := file.readEnds_eq h disk hc hjunk
    rw [hjunk] at hbuf
    have hwindow : (ByteFile.writeAt 0 buf (pos - first * SectorSize) (source.take n)).length
        = (1 + last - first) * SectorSize := by
      rw [length_writeAt 0 (by omega), hbuf]
    obtain ⟨disk', hwrite, hafter, hother⟩ := h.writeSectors_cell disk first (by omega) hwindow
    refine ⟨disk', ?_, eq_splice 0 (by simp) fun k hk => ?_, hother⟩
    · rw [hends, Option.bind_eq_bind, Option.bind_some, hwrite, Option.bind_eq_bind,
        Option.bind_some, ← hcount]
    · rw [FileHeader.length_contents] at hk
      rw [FileHeader.getD_contents hk, hafter k hk, hnum, FileHeader.getD_contents hk]
      -- byte `k`: of a sector that is written, and there within the range or beside it
      by_cases htouched : first * SectorSize ≤ k ∧ k < (last + 1) * SectorSize
      · obtain ⟨hk₁, hk₂⟩ := htouched
        rw [if_pos ⟨hk₁, hk₂⟩, getD_writeAt 0 (by omega), hnew, List.length_take]
        by_cases hwritten : pos ≤ k ∧ k < pos + n
        · rw [if_pos (by omega), if_pos (by omega),
            show k - first * SectorSize - (pos - first * SectorSize) = k - pos by omega]
          simp only [List.getD_eq_getElem?_getD, List.getElem?_take]
          rw [if_pos (by omega), if_pos (by omega)]
        · rw [if_neg (by omega), if_neg (by omega)]
          exact hcells k hk₁ hk₂ hk (by omega)
      · -- a sector that is not written
        rw [if_neg htouched, if_neg]
        rw [List.length_take]
        omega

/-- **What is written is read back**, through any handle on the file and at
any alignment; bytes that the range does not cover are as before, and so is
every file that shares no sector with this one. -/
theorem ReadAt_of_WriteAt (h : file.hdr.Sound) (disk : Disk) (junk : Nat → Byte)
    {source : List Byte} (hpos : 0 ≤ position) (hsum : position + numBytes < 2 ^ 31)
    (hsource : numBytes ≤ source.length) :
    ∃ disk' n, file.WriteAt disk junk source numBytes position = some (disk', n) ∧
      n = (min numBytes.toNat (file.hdr.size - position.toNat) : Nat) ∧
      (∀ other : OpenFile, other.hdr = file.hdr → ∀ count start : Int, 0 ≤ start →
        start + count < 2 ^ 31 → other.ReadAt disk' count start
          = some (ByteFile.readAt (splice (file.hdr.contents disk) position.toNat
              (source.take numBytes.toNat)) start.toNat count.toNat)) ∧
      ∀ other : OpenFile, other.hdr.Sound → List.Disjoint other.hdr.sectors file.hdr.sectors →
        ∀ count start : Int, 0 ≤ start → start + count < 2 ^ 31 →
          other.ReadAt disk' count start = other.ReadAt disk count start := by
  obtain ⟨disk', hwrite, hcontents, hother⟩ := file.WriteAt_spec h disk junk hpos hsum hsource
  refine ⟨disk', _, hwrite, rfl, ?_, ?_⟩
  · intro other hhdr count start hstart hend
    rw [other.ReadAt_eq (hhdr ▸ h) disk' hstart hend, hhdr, hcontents]
  · intro other hsound hapart count start hstart hend
    rw [other.ReadAt_eq hsound disk' hstart hend, other.ReadAt_eq hsound disk hstart hend,
      FileHeader.contents_congr hsound fun s hs => hother s (hapart hs)]

section Example

/-- A file of 130 bytes in sectors 7 and 6. -/
def twoSectors : OpenFile where
  hdr :=
    { numBytes := 130
      numSectors := 2
      dataSectors := 7 :: 6 :: List.replicate 28 0
      numDirect := rfl }
  seekPosition := 0

theorem twoSectors_sound : twoSectors.hdr.Sound where
  count := by decide
  fits := by decide
  onDisk := by
    have htaken : twoSectors.hdr.dataSectors.take twoSectors.hdr.numSectors.toInt.toNat = [7, 6] :=
      rfl
    rw [htaken]
    exact List.forall_mem_cons.mpr ⟨by decide, List.forall_mem_singleton.mpr (by decide)⟩
  nodup := by decide

/-- Five bytes over the border of the sectors, three of which fit, read back
through a second handle. -/
theorem ReadAt_of_WriteAt_twoSectors :
    ∃ disk', twoSectors.WriteAt (fun _ => .ofBytes []) (fun _ => 9) [1, 2, 3, 4, 5] 5 127
        = some (disk', 3) ∧
      { twoSectors with seekPosition := 4 }.ReadAt disk' 8 126 = some [0, 1, 2, 3] := by
  obtain ⟨disk', n, hwrite, hn, hread, -⟩ := twoSectors.ReadAt_of_WriteAt twoSectors_sound
    (fun _ => .ofBytes []) (fun _ => 9) (show (0 : Int) ≤ 127 by decide)
    (show (127 : Int) + 5 < 2 ^ 31 by decide)
    (show (5 : Int) ≤ ([1, 2, 3, 4, 5] : List Byte).length by decide)
  have hthree : n = 3 := hn.trans (by decide)
  refine ⟨disk', by rw [hwrite, hthree], ?_⟩
  rw [hread { twoSectors with seekPosition := 4 } rfl 8 126 (by decide) (by decide)]
  decide +kernel

end Example

end OpenFile

end DistributedAscii.NachOS.Filesys
