import DistributedAscii.NachOS.Filesys.Entries
import DistributedAscii.NachOS.Filesys.FileSystem
import DistributedAscii.NachOS.Filesys.FreeMap

/-!
# NachOS — what holds of the disk between the calls

Every sector of the disk has one use: it is reserved for the system, it is
the header or a data sector of one file, or it is free
(`Consistent.shared`). `format` makes such a disk out of any, and `Create`,
`Remove` and a write to a file keep it so.
-/

namespace DistributedAscii.NachOS.Filesys

/-- The sectors of a file of a given size. -/
theorem FileHeader.Sound.length_sectors_of_size {hdr : FileHeader} (h : hdr.Sound) {n : Nat}
    (hsize : hdr.size = n) (hpos : 0 < n) :
    (hdr.sectors.length : Int) = divRoundUp n SectorSize := by
  have hbytes : hdr.numBytes.toInt = n := by
    rw [size] at hsize
    omega
  have hcount := h.count
  rw [hbytes] at hcount
  rw [h.length_sectors, ← hcount, Int.toNat_of_nonneg]
  rw [hcount, divRoundUp_natCast]
  exact Int.natCast_nonneg _

namespace DirectoryEntry

/-- The number of the sector with the header. -/
def headerSector (entry : DirectoryEntry) : Nat :=
  entry.sector.toInt.toNat

def header (entry : DirectoryEntry) (disk : Disk) : FileHeader :=
  .ofSector (disk entry.headerSector)

/-- The sectors of a file: the header and the data. -/
def owned (entry : DirectoryEntry) (disk : Disk) : List Nat :=
  entry.headerSector :: (entry.header disk).sectors

end DirectoryEntry

namespace FileSystem

/-- The map of the sectors as it is on the disk. -/
def freeMap (fs : FileSystem) (disk : Disk) : BitMap :=
  mapOfBytes (.new NumSectors) (fs.freeMapFile.hdr.contents disk)

def directory (fs : FileSystem) (disk : Disk) : Directory :=
  .ofBytes NumDirEntries (fs.directoryFile.hdr.contents disk)

/-- The entries of the files on the disk. -/
def files (fs : FileSystem) (disk : Disk) : List DirectoryEntry :=
  (fs.directory disk).used

/-- The sectors of the system: two headers, the map and the directory. -/
def reserved (fs : FileSystem) : List Nat :=
  0 :: 1 :: (fs.freeMapFile.hdr.sectors ++ fs.directoryFile.hdr.sectors)

def free (fs : FileSystem) (disk : Disk) : List Nat :=
  (fs.freeMap disk).clearBits

/-- The two files of the system are in place. -/
structure Mounted (fs : FileSystem) (disk : Disk) : Prop where
  mount : mount disk = some fs
  mapSound : fs.freeMapFile.hdr.Sound
  mapSize : fs.freeMapFile.hdr.size = FreeMapFileSize
  dirSound : fs.directoryFile.hdr.Sound
  dirSize : fs.directoryFile.hdr.size = DirectoryFileSize
  apart : fs.reserved.Nodup

/-- Each file has a sound header, no two files have one key, and each sector
of the disk has one use. -/
structure Consistent (fs : FileSystem) (disk : Disk) : Prop extends Mounted fs disk where
  onDisk : ∀ entry ∈ fs.files disk, OnDisk entry.sector.toInt
  header : ∀ entry ∈ fs.files disk, (entry.header disk).Sound
  keys : ((fs.files disk).map DirectoryEntry.key).Nodup
  shared : (fs.reserved ++ (fs.files disk).flatMap (·.owned disk) ++ fs.free disk).Perm
    (List.range NumSectors)

variable {fs : FileSystem} {disk disk' : Disk}

@[simp] theorem numBits_freeMap : (fs.freeMap disk).numBits = NumSectors := rfl

theorem length_map_of_numBits {freeMap : BitMap} (h : freeMap.numBits = NumSectors) :
    freeMap.map.length * 4 = FreeMapFileSize := by
  rw [freeMap.numWords, h]
  rfl

namespace Mounted

/-- Only the sectors of the two headers count. -/
theorem congr (h : fs.Mounted disk) (h0 : disk' 0 = disk 0) (h1 : disk' 1 = disk 1) :
    fs.Mounted disk' := by
  refine { h with mount := ?_ }
  rw [← h.mount]
  simp only [FileSystem.mount, OpenFile.new, FileHeader.FetchFrom, Disk.ReadSector]
  rw [show disk' FreeMapSector.toNat = disk FreeMapSector.toNat from h0,
    show disk' DirectorySector.toNat = disk DirectorySector.toNat from h1]

theorem apart_map (h : fs.Mounted disk) :
    ∀ s ∈ fs.freeMapFile.hdr.sectors, s ≠ 0 ∧ s ≠ 1 ∧ s ∉ fs.directoryFile.hdr.sectors := by
  intro s hs
  have hapart := h.apart
  simp only [reserved, List.nodup_cons, List.mem_cons, List.mem_append, not_or,
    List.nodup_append] at hapart
  obtain ⟨⟨-, h0, -⟩, ⟨h1, -⟩, -, -, hne⟩ := hapart
  exact ⟨fun heq => h0 (heq ▸ hs), fun heq => h1 (heq ▸ hs), fun hs' => hne s hs s hs' rfl⟩

theorem apart_directory (h : fs.Mounted disk) :
    ∀ s ∈ fs.directoryFile.hdr.sectors, s ≠ 0 ∧ s ≠ 1 ∧ s ∉ fs.freeMapFile.hdr.sectors := by
  intro s hs
  have hapart := h.apart
  simp only [reserved, List.nodup_cons, List.mem_cons, List.mem_append, not_or,
    List.nodup_append] at hapart
  obtain ⟨⟨-, -, h0⟩, ⟨-, h1⟩, -, -, hne⟩ := hapart
  exact ⟨fun heq => h0 (heq ▸ hs), fun heq => h1 (heq ▸ hs), fun hs' => hne s hs' s hs rfl⟩

theorem fetchMap_eq (h : fs.Mounted disk) :
    fetchMap (.new NumSectors) fs.freeMapFile disk = some (fs.freeMap disk) :=
  Filesys.fetchMap_eq h.mapSound disk (h.mapSize.trans (length_map_of_numBits rfl).symm)

theorem fetchDirectory_eq (h : fs.Mounted disk) (junk : Nat → DirectoryEntry) :
    (Directory.new NumDirEntries junk).FetchFrom fs.directoryFile disk
      = some (fs.directory disk) := by
  have hsize : fs.directoryFile.hdr.size
      = (Directory.new NumDirEntries junk).tableSize * entrySize := by
    rw [h.dirSize, Directory.tableSize_new]
    rfl
  rw [Directory.FetchFrom_eq h.dirSound disk hsize, Directory.tableSize_new]
  rfl

/-- The map goes to its sectors and nowhere else. -/
theorem writeBackMap_eq (h : fs.Mounted disk) (junk : Nat → Byte) {freeMap : BitMap}
    (hbits : freeMap.numBits = NumSectors) :
    ∃ disk', writeBackMap freeMap fs.freeMapFile disk junk = some disk' ∧ fs.Mounted disk' ∧
      fs.freeMap disk' = freeMap ∧ fs.directory disk' = fs.directory disk ∧
      ∀ s ∉ fs.freeMapFile.hdr.sectors, disk' s = disk s := by
  obtain ⟨disk', hwrite, hcontents, hother⟩ := writeBackMap_spec h.mapSound disk junk
    (h.mapSize.trans (length_map_of_numBits hbits).symm)
  refine ⟨disk', hwrite, ?_, ?_, ?_, hother⟩
  · exact h.congr (hother 0 fun hs => (h.apart_map 0 hs).1 rfl)
      (hother 1 fun hs => (h.apart_map 1 hs).2.1 rfl)
  · rw [FileSystem.freeMap, hcontents]
    exact mapOfBytes_mapBytes hbits.symm
  · rw [FileSystem.directory, FileSystem.directory, FileHeader.contents_congr h.dirSound]
    exact fun s hs => hother s fun hs' => (h.apart_map s hs').2.2 hs

theorem writeBackDirectory_eq (h : fs.Mounted disk) (junk : Nat → Byte) (directory : Directory)
    (hsize : directory.tableSize = NumDirEntries) :
    ∃ disk', directory.WriteBack fs.directoryFile disk junk = some disk' ∧ fs.Mounted disk' ∧
      fs.freeMap disk' = fs.freeMap disk ∧ fs.directory disk' = directory ∧
      ∀ s ∉ fs.directoryFile.hdr.sectors, disk' s = disk s := by
  obtain ⟨disk', hwrite, hcontents, hother⟩ := directory.WriteBack_spec
    h.dirSound disk junk (by rw [h.dirSize, hsize]; rfl)
  refine ⟨disk', hwrite, ?_, ?_, ?_, hother⟩
  · exact h.congr (hother 0 fun hs => (h.apart_directory 0 hs).1 rfl)
      (hother 1 fun hs => (h.apart_directory 1 hs).2.1 rfl)
  · rw [FileSystem.freeMap, FileSystem.freeMap, FileHeader.contents_congr h.mapSound]
    exact fun s hs => hother s fun hs' => (h.apart_directory s hs').2.2 hs
  · rw [FileSystem.directory, hcontents, ← hsize]
    exact directory.ofBytes_toBytes

end Mounted

namespace Consistent

variable {entry other : DirectoryEntry} {s : Nat}

theorem nodup (h : fs.Consistent disk) :
    (fs.reserved ++ (fs.files disk).flatMap (·.owned disk) ++ fs.free disk).Nodup :=
  h.shared.nodup_iff.mpr List.nodup_range

theorem mem_owned (hentry : entry ∈ fs.files disk) (hs : s ∈ entry.owned disk) :
    s ∈ (fs.files disk).flatMap (·.owned disk) :=
  List.mem_flatMap.mpr ⟨entry, hentry, hs⟩

theorem not_reserved (h : fs.Consistent disk) (hentry : entry ∈ fs.files disk)
    (hs : s ∈ entry.owned disk) : s ∉ fs.reserved := fun hres =>
  (List.nodup_append.mp (List.nodup_append.mp h.nodup).1).2.2 s hres s (mem_owned hentry hs) rfl

theorem not_free (h : fs.Consistent disk) (hentry : entry ∈ fs.files disk)
    (hs : s ∈ entry.owned disk) : s ∉ fs.free disk := fun hfree =>
  (List.nodup_append.mp h.nodup).2.2 s
    (List.mem_append_right _ (mem_owned hentry hs)) s hfree rfl

theorem reserved_not_free (h : fs.Consistent disk) (hs : s ∈ fs.reserved) : s ∉ fs.free disk :=
  fun hfree => (List.nodup_append.mp h.nodup).2.2 s (List.mem_append_left _ hs) s hfree rfl

/-- A sector has one owner. -/
theorem owner_unique (h : fs.Consistent disk) (hentry : entry ∈ fs.files disk)
    (hother : other ∈ fs.files disk) (hs : s ∈ entry.owned disk) (hs' : s ∈ other.owned disk) :
    entry = other := by
  have hflat := (List.nodup_append.mp (List.nodup_append.mp h.nodup).1).2.1
  have hpair := (List.nodup_flatMap.mp hflat).2
  have : Std.Symm (List.Disjoint.onFun fun entry : DirectoryEntry => entry.owned disk) :=
    ⟨fun _ _ hdis => List.Disjoint.symm hdis⟩
  by_contra hne
  exact hpair.forall hentry hother hne hs hs'

theorem key_inj (h : fs.Consistent disk) (hentry : entry ∈ fs.files disk)
    (hother : other ∈ fs.files disk) (hkey : entry.key = other.key) : entry = other :=
  List.inj_on_of_nodup_map h.keys hentry hother hkey

theorem headerSector_not_mem (h : fs.Consistent disk) (hentry : entry ∈ fs.files disk) :
    entry.headerSector ∉ (entry.header disk).sectors := by
  have hflat := (List.nodup_append.mp (List.nodup_append.mp h.nodup).1).2.1
  exact (List.nodup_cons.mp ((List.nodup_flatMap.mp hflat).1 entry hentry)).1

/-! ### Room -/

theorem length_reserved (h : fs.Mounted disk) : fs.reserved.length = 5 := by
  have hmap := h.mapSound.length_sectors_of_size h.mapSize (by decide)
  have hdir := h.dirSound.length_sectors_of_size h.dirSize (by decide)
  have hone : divRoundUp FreeMapFileSize SectorSize = 1 := by decide
  have htwo : divRoundUp DirectoryFileSize SectorSize = 2 := by decide
  simp only [reserved, List.length_cons, List.length_append]
  omega

/-- **No sector is lost**: those in use and the free ones are the disk. -/
theorem accounted (h : fs.Consistent disk) :
    5 + ((fs.files disk).map fun entry => 1 + (entry.header disk).numSectors.toInt.toNat).sum
      + (fs.freeMap disk).NumClear = NumSectors := by
  have hlength := h.shared.length_eq
  have hsum : ((fs.files disk).map fun entry => (entry.owned disk).length)
      = (fs.files disk).map fun entry => 1 + (entry.header disk).numSectors.toInt.toNat := by
    refine List.map_congr_left fun entry hentry => ?_
    rw [DirectoryEntry.owned, List.length_cons, (h.header entry hentry).length_sectors,
      Nat.add_comm]
  rw [List.length_append, List.length_append, length_reserved h.toMounted, List.length_flatMap,
    List.length_range, free, BitMap.length_clearBits, hsum] at hlength
  exact hlength

theorem length_files_le (fs : FileSystem) (disk : Disk) :
    (fs.files disk).length ≤ NumDirEntries :=
  (Directory.length_used_le _).trans (Directory.tableSize_ofBytes ..).le

/-- There are ten files at most, and each has thirty sectors at most: the
disk never fills up. -/
theorem room (h : fs.Consistent disk) : NumDirect + 1 ≤ (fs.free disk).length := by
  have haccounted := h.accounted
  have hfiles := length_files_le fs disk
  have hsum : ((fs.files disk).map fun entry =>
      1 + (entry.header disk).numSectors.toInt.toNat).sum ≤ (fs.files disk).length * 31 := by
    rw [← List.length_map (f := fun entry : DirectoryEntry =>
      1 + (entry.header disk).numSectors.toInt.toNat), ← smul_eq_mul]
    refine List.sum_le_card_nsmul _ _ fun n hn => ?_
    obtain ⟨entry, hentry, rfl⟩ := List.mem_map.mp hn
    have hfits := (h.header entry hentry).fits
    simp only [NumDirect, SectorSize] at hfits
    omega
  rw [free, BitMap.length_clearBits]
  simp only [NumDirect, SectorSize, NumDirEntries, NumSectors, SectorsPerTrack, NumTracks] at *
  omega

end Consistent

end FileSystem

end DistributedAscii.NachOS.Filesys
