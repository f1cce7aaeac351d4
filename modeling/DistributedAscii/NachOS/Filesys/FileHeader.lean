import DistributedAscii.Lib.Blocks
import DistributedAscii.Lib.Words
import DistributedAscii.NachOS.Machine

/-!
# NachOS — file headers

The disk of `machine/disk.cc` behind the synchronous interface of
`filesys/synchdisk.cc`, one whole sector for each request, and the file
header of `filesys/filehdr.cc`, which is the content of one sector.

A result is `none` where an `ASSERT` fails or an access leaves an array.
-/

namespace DistributedAscii.NachOS.Filesys

open Lib

def SectorSize : Nat := 128
def SectorsPerTrack : Nat := 32
def NumTracks : Nat := 32
def NumSectors : Nat := SectorsPerTrack * NumTracks

structure Sector where
  bytes : List Byte
  size : bytes.length = SectorSize

/-- The sector-sized block that a buffer begins with. -/
def Sector.ofBytes (buffer : List Byte) : Sector where
  bytes := (List.range SectorSize).map fun k => buffer.getD k 0
  size := by rw [List.length_map, List.length_range]

theorem Sector.bytes_ofBytes {buffer : List Byte} (h : SectorSize ≤ buffer.length) :
    (ofBytes buffer).bytes = buffer.take SectorSize := by
  refine List.ext_getElem (by simp [ofBytes, h]) fun k hk hk' => ?_
  have hk : k < SectorSize := by simpa [ofBytes] using hk
  simp only [ofBytes, List.getElem_map, List.getElem_range, List.getElem_take]
  exact List.getD_eq_getElem _ _ (by omega)

/-- By sector number; the first `NumSectors` are there. -/
abbrev Disk := Nat → Sector

/-- What the requests assert of a sector number. -/
def OnDisk (sectorNumber : Int) : Prop :=
  0 ≤ sectorNumber ∧ sectorNumber < NumSectors

instance (sectorNumber : Int) : Decidable (OnDisk sectorNumber) :=
  inferInstanceAs (Decidable (_ ∧ _))

namespace Disk

def ReadSector (disk : Disk) (sectorNumber : Int) : Option Sector :=
  if OnDisk sectorNumber then some (disk sectorNumber.toNat) else none

def WriteSector (disk : Disk) (sectorNumber : Int) (data : Sector) : Option Disk :=
  if OnDisk sectorNumber then some (Function.update disk sectorNumber.toNat data) else none

end Disk

/-- The sectors that a header has place for. -/
def NumDirect : Nat := (SectorSize - 2 * 4) / 4
def MaxFileSize : Nat := NumDirect * SectorSize

structure FileHeader where
  numBytes : Int32
  numSectors : Int32
  dataSectors : List Int32
  numDirect : dataSectors.length = NumDirect

namespace FileHeader

/-- The header as it lies in memory. -/
def words (hdr : FileHeader) : List (BitVec 32) :=
  (hdr.numBytes :: hdr.numSectors :: hdr.dataSectors).map Int32.toBitVec

theorem length_words (hdr : FileHeader) : hdr.words.length = 32 := by
  simp [words, hdr.numDirect, NumDirect, SectorSize]

def toSector (hdr : FileHeader) : Sector where
  bytes := hdr.words.flatMap Words.bytesOf
  size := by rw [Words.length_flatMap, length_words, SectorSize]

def ofSector (sector : Sector) : FileHeader where
  numBytes := .ofBitVec (Words.wordAt sector.bytes 0)
  numSectors := .ofBitVec (Words.wordAt sector.bytes 1)
  dataSectors := (List.range NumDirect).map fun i => .ofBitVec (Words.wordAt sector.bytes (2 + i))
  numDirect := by rw [List.length_map, List.length_range]

def FetchFrom (disk : Disk) (sector : Int) : Option FileHeader :=
  (disk.ReadSector sector).map ofSector

def WriteBack (hdr : FileHeader) (disk : Disk) (sector : Int) : Option Disk :=
  disk.WriteSector sector hdr.toSector

def FileLength (hdr : FileHeader) : Int :=
  hdr.numBytes.toInt

def ByteToSector (hdr : FileHeader) (offset : Nat) : Option Int :=
  hdr.dataSectors[offset / SectorSize]?.map Int32.toInt

def setDataSector (hdr : FileHeader) (i : Nat) (sector : Int32) : FileHeader :=
  { hdr with
    dataSectors := hdr.dataSectors.set i sector
    numDirect := by rw [List.length_set, hdr.numDirect] }

/-- The loop of `Allocate`, from `i` on. -/
def allocateLoop (hdr : FileHeader) (freeMap : BitMap) (i : Nat) : Nat → FileHeader × BitMap
  | 0 => (hdr, freeMap)
  | n + 1 =>
      (hdr.setDataSector i (.ofInt freeMap.Find.1)).allocateLoop freeMap.Find.2 (i + 1) n

def Allocate (hdr : FileHeader) (freeMap : BitMap) (fileSize : Int32) :
    Option (FileHeader × BitMap × Bool) :=
  let numSectors := divRoundUp fileSize.toInt SectorSize
  let hdr := { hdr with numBytes := fileSize, numSectors := .ofInt numSectors }
  if freeMap.NumClear < numSectors then some (hdr, freeMap, false)
  else if NumDirect < numSectors then none
  else
    let (hdr, freeMap) := hdr.allocateLoop freeMap 0 numSectors.toNat
    some (hdr, freeMap, true)

/-- The loop of `Deallocate`; each sector ought to be marked. -/
def deallocateLoop (freeMap : BitMap) : List Int32 → Option BitMap
  | [] => some freeMap
  | sector :: rest => do
      let marked ← freeMap.Test sector.toInt
      let freeMap ← if marked then freeMap.Clear sector.toInt else none
      deallocateLoop freeMap rest

def Deallocate (hdr : FileHeader) (freeMap : BitMap) : Option BitMap :=
  if NumDirect < hdr.numSectors.toInt then none
  else deallocateLoop freeMap (hdr.dataSectors.take hdr.numSectors.toInt.toNat)

/-! ## The sector of a header -/

/-- **Round trip** over the disk. -/
theorem ofSector_toSector (hdr : FileHeader) : ofSector hdr.toSector = hdr := by
  obtain ⟨numBytes, numSectors, dataSectors, hlength⟩ := hdr
  have hword : ∀ i (hi : i < (numBytes :: numSectors :: dataSectors).length),
      Words.wordAt (toSector ⟨numBytes, numSectors, dataSectors, hlength⟩).bytes i
        = (numBytes :: numSectors :: dataSectors)[i].toBitVec := by
    intro i hi
    have hround := Words.wordAt_flatMap
      (words ⟨numBytes, numSectors, dataSectors, hlength⟩) (i := i) (by simpa [words] using hi)
    rw [toSector, hround]
    simp only [words, List.getElem_map]
  rw [ofSector, mk.injEq]
  refine ⟨?_, ?_, ?_⟩
  · rw [hword 0 (by simp)]
    rfl
  · rw [hword 1 (by simp)]
    rfl
  · refine List.ext_getElem (by rw [List.length_map, List.length_range, hlength]) fun i hi hi' => ?_
    rw [List.getElem_map, List.getElem_range, hword (2 + i) (by simp; omega)]
    simp [Nat.add_comm 2 i]

end FileHeader

end DistributedAscii.NachOS.Filesys
