import DistributedAscii.NachOS.Filesys.OpenFile

/-!
# NachOS — the directory and the map of sectors as files

`filesys/directory.cc`, and `FetchFrom` and `WriteBack` of
`userprog/bitmap.cc`. An entry of the directory is the 20 bytes that
`DirectoryEntry` takes in memory: the flag, three bytes of padding, the
sector, ten bytes for the name and two more of padding.

Only the first nine bytes of a name are stored and compared, so that they
are the key of a file (`Name.key`).
-/

namespace DistributedAscii.NachOS.Filesys

open Lib Lib.Blocks

def FileNameMaxLen : Nat := 9

/-- A `const char *name`: the bytes in front of the terminator. -/
structure Name where
  bytes : List Byte
  noNul : 0 ∉ bytes

/-- `!strncmp(a, b, n)`. -/
def strncmpEq : Nat → List Byte → List Byte → Bool
  | 0, _, _ => true
  | n + 1, a, b =>
      if a.headD 0 ≠ b.headD 0 then false
      else if a.headD 0 = 0 then true
      else strncmpEq n a.tail b.tail

/-- What `strncpy(_, source, n)` writes. -/
def strncpy (n : Nat) (source : List Byte) : List Byte :=
  source.take n ++ List.replicate (n - source.length) 0

/-- `sizeof(DirectoryEntry)`. -/
def entrySize : Nat := 20

structure DirectoryEntry where
  raw : List Byte
  size : raw.length = entrySize

namespace DirectoryEntry

def inUse (entry : DirectoryEntry) : Bool :=
  entry.raw.getD 0 0 ≠ 0

def sector (entry : DirectoryEntry) : Int32 :=
  .ofBitVec (Words.wordAt entry.raw 1)

def name (entry : DirectoryEntry) : List Byte :=
  (entry.raw.drop 8).take (FileNameMaxLen + 1)

/-- Some bytes of the entry are assigned. -/
def assign (entry : DirectoryEntry) (pos : Nat) (new : List Byte) : DirectoryEntry where
  raw := splice entry.raw pos new
  size := by rw [length_splice, entry.size]

def setInUse (entry : DirectoryEntry) (inUse : Bool) : DirectoryEntry :=
  entry.assign 0 [if inUse then 1 else 0]

def setSector (entry : DirectoryEntry) (sector : Int32) : DirectoryEntry :=
  entry.assign 4 (Words.bytesOf sector.toBitVec)

def setName (entry : DirectoryEntry) (name : Name) : DirectoryEntry :=
  entry.assign 8 (strncpy FileNameMaxLen name.bytes)

/-- Entry `i` of a table in memory. -/
def ofTable (table : List Byte) (i : Nat) : DirectoryEntry where
  raw := (List.range entrySize).map fun k => table.getD (entrySize * i + k) 0
  size := by rw [List.length_map, List.length_range]

end DirectoryEntry

structure Directory where
  table : List DirectoryEntry

namespace Directory

def tableSize (directory : Directory) : Nat :=
  directory.table.length

/-- `junk` is what `new` finds in memory. -/
def new (size : Nat) (junk : Nat → DirectoryEntry) : Directory where
  table := (List.range size).map fun i => (junk i).setInUse false

/-- The table as it lies in memory. -/
def toBytes (directory : Directory) : List Byte :=
  directory.table.flatMap DirectoryEntry.raw

def ofBytes (size : Nat) (table : List Byte) : Directory where
  table := (List.range size).map (DirectoryEntry.ofTable table)

def FetchFrom (directory : Directory) (file : OpenFile) (disk : Disk) : Option Directory :=
  (file.ReadAt disk (directory.tableSize * entrySize : Nat) 0).map fun bytes =>
    ofBytes directory.tableSize (ByteFile.writeAt 0 directory.toBytes 0 bytes)

def WriteBack (directory : Directory) (file : OpenFile) (disk : Disk) (junk : Nat → Byte) :
    Option Disk :=
  (file.WriteAt disk junk directory.toBytes (directory.tableSize * entrySize : Nat) 0).map
    Prod.fst

/-- None where the source has -1. -/
def FindIndex (directory : Directory) (name : Name) : Option Nat :=
  directory.table.findIdx? fun entry =>
    entry.inUse && strncmpEq FileNameMaxLen entry.name name.bytes

def Find (directory : Directory) (name : Name) : Int :=
  match (directory.FindIndex name).bind fun i => directory.table[i]? with
  | some entry => entry.sector.toInt
  | none => -1

def Add (directory : Directory) (name : Name) (newSector : Int32) : Directory × Bool :=
  if directory.FindIndex name ≠ none then (directory, false)
  else
    match directory.table.findIdx? fun entry => !entry.inUse with
    | some i =>
        ({ table := directory.table.modify i fun entry =>
            ((entry.setInUse true).setName name).setSector newSector }, true)
    | none => (directory, false)

def Remove (directory : Directory) (name : Name) : Directory × Bool :=
  match directory.FindIndex name with
  | some i => ({ table := directory.table.modify i fun entry => entry.setInUse false }, true)
  | none => (directory, false)

end Directory

/-! ## The map of the sectors -/

/-- The words of the map as they lie in memory. -/
def mapBytes (freeMap : BitMap) : List Byte :=
  freeMap.map.flatMap fun word => Words.bytesOf word

/-- The map, with its words replaced by those of `bytes`. -/
def mapOfBytes (freeMap : BitMap) (bytes : List Byte) : BitMap where
  numBits := freeMap.numBits
  map := Words.words bytes freeMap.map.length
  numWords := (Words.length_words ..).trans freeMap.numWords

/-- `BitMap::FetchFrom`. -/
def fetchMap (freeMap : BitMap) (file : OpenFile) (disk : Disk) : Option BitMap :=
  (file.ReadAt disk (freeMap.map.length * 4 : Nat) 0).map fun bytes =>
    mapOfBytes freeMap (ByteFile.writeAt 0 (mapBytes freeMap) 0 bytes)

/-- `BitMap::WriteBack`. -/
def writeBackMap (freeMap : BitMap) (file : OpenFile) (disk : Disk) (junk : Nat → Byte) :
    Option Disk :=
  (file.WriteAt disk junk (mapBytes freeMap) (freeMap.map.length * 4 : Nat) 0).map Prod.fst

/-! ## Names -/

/-- What a C string function sees. -/
def untilNul (s : List Byte) : List Byte :=
  s.takeWhile (· ≠ 0)

/-- What is stored and compared of a name. -/
def Name.key (name : Name) : List Byte :=
  name.bytes.take FileNameMaxLen

def DirectoryEntry.key (entry : DirectoryEntry) : List Byte :=
  untilNul (entry.name.take FileNameMaxLen)

theorem untilNul_append_replicate {s : List Byte} (h : 0 ∉ s) (k : Nat) :
    untilNul (s ++ List.replicate k 0) = s := by
  rw [untilNul, List.takeWhile_append_of_pos]
  · cases k <;> simp [List.replicate_succ]
  · intro b hb
    have hne : b ≠ 0 := fun h0 => h (h0 ▸ hb)
    simpa using hne

theorem untilNul_eq_self {s : List Byte} (h : 0 ∉ s) : untilNul s = s := by
  simpa using untilNul_append_replicate h 0

theorem untilNul_zero_cons (s : List Byte) : untilNul (0 :: s) = [] :=
  List.takeWhile_cons_of_neg (by simp)

theorem untilNul_cons {x : Byte} (hx : x ≠ 0) (s : List Byte) :
    untilNul (x :: s) = x :: untilNul s :=
  List.takeWhile_cons_of_pos (by simpa using hx)

/-- The terminator is as good as the end. -/
theorem untilNul_take_succ (n : Nat) (s : List Byte) :
    untilNul (s.take (n + 1)) =
      if s.headD 0 = 0 then [] else s.headD 0 :: untilNul (s.tail.take n) := by
  cases s with
  | nil => simp [untilNul]
  | cons x s =>
      rw [List.take_succ_cons, List.headD_cons, List.tail_cons]
      split
      case isTrue hx => rw [hx, untilNul_zero_cons]
      case isFalse hx => rw [untilNul_cons hx]

theorem strncmpEq_iff {n : Nat} {a b : List Byte} :
    strncmpEq n a b = true ↔ untilNul (a.take n) = untilNul (b.take n) := by
  induction n generalizing a b with
  | zero => simp [strncmpEq]
  | succ n ih =>
      rw [untilNul_take_succ, untilNul_take_succ, strncmpEq]
      by_cases hne : a.headD 0 = b.headD 0
      · rw [if_neg (by simpa using hne), hne]
        split
        · simp
        · rw [ih, List.cons.injEq, and_iff_right rfl]
      · rw [if_pos hne]
        split <;> split <;> simp_all

theorem Name.not_mem_key (name : Name) : 0 ∉ name.key := fun h =>
  name.noNul (List.mem_of_mem_take h)

namespace DirectoryEntry

/-- The comparison is that of the keys. -/
theorem strncmpEq_name (entry : DirectoryEntry) (name : Name) :
    strncmpEq FileNameMaxLen entry.name name.bytes = true ↔ entry.key = name.key := by
  rw [strncmpEq_iff, ← key, ← Name.key, untilNul_eq_self name.not_mem_key]

theorem key_eq (entry : DirectoryEntry) :
    entry.key = untilNul (ByteFile.readAt entry.raw 8 FileNameMaxLen) := by
  rw [key, name, List.take_take, ByteFile.readAt]
  rfl

theorem inUse_assign (entry : DirectoryEntry) {pos : Nat} (hpos : 0 < pos) (new : List Byte) :
    (entry.assign pos new).inUse = entry.inUse := by
  rw [inUse, assign, getD_splice 0 (by rw [entry.size]; decide), if_neg (by omega), inUse]

@[simp] theorem inUse_setInUse (entry : DirectoryEntry) (b : Bool) :
    (entry.setInUse b).inUse = b := by
  rw [inUse, setInUse, assign, getD_splice 0 (by rw [entry.size]; decide), if_pos (by simp)]
  cases b <;> simp

theorem sector_setSector (entry : DirectoryEntry) (sector : Int32) :
    (entry.setSector sector).sector = sector := by
  have hbyte : ∀ k < 4, (splice entry.raw 4 (Words.bytesOf sector.toBitVec)).getD (4 + k) 0
      = (Words.bytesOf sector.toBitVec).getD k 0 := by
    intro k hk
    rw [getD_splice 0 (by rw [entry.size, entrySize]; omega), Words.length_bytesOf,
      if_pos (by omega), Nat.add_sub_cancel_left]
  have hword : Words.wordAt (splice entry.raw 4 (Words.bytesOf sector.toBitVec)) 1
      = sector.toBitVec := by
    rw [Words.wordAt]
    simp only [Nat.mul_one]
    rw [hbyte 1 (by decide), hbyte 2 (by decide), hbyte 3 (by decide)]
    have h0 := hbyte 0 (by decide)
    rw [Nat.add_zero] at h0
    rw [h0]
    exact Words.ofBytes_bytesOf sector.toBitVec
  rw [DirectoryEntry.sector, setSector, assign, hword]
  rfl

theorem key_setName (entry : DirectoryEntry) (name : Name) :
    (entry.setName name).key = name.key := by
  have hlength : (strncpy FileNameMaxLen name.bytes).length = FileNameMaxLen := by
    rw [strncpy, List.length_append, List.length_take, List.length_replicate]
    omega
  have hread := readAt_splice entry.raw 8 (strncpy FileNameMaxLen name.bytes)
  rw [hlength, entry.size, List.take_of_length_le (by rw [hlength]; decide)] at hread
  rw [key_eq, setName, assign, hread, strncpy, ← Name.key]
  exact untilNul_append_replicate name.not_mem_key _

theorem key_setSector (entry : DirectoryEntry) (sector : Int32) :
    (entry.setSector sector).key = entry.key := by
  rw [key_eq, key_eq, setSector, assign, readAt_splice_of_apart]
  exact .inr (by simp)

end DirectoryEntry

/-! ## The directory on the disk -/

namespace Directory

variable {directory : Directory} {file : OpenFile} {disk : Disk}

theorem length_toBytes (directory : Directory) :
    directory.toBytes.length = directory.tableSize * entrySize := by
  rw [toBytes, ByteFile.length_records DirectoryEntry.size, tableSize, Nat.mul_comm]

@[simp] theorem tableSize_ofBytes (size : Nat) (table : List Byte) :
    (ofBytes size table).tableSize = size := by
  simp [ofBytes, tableSize]

@[simp] theorem tableSize_new (size : Nat) (junk : Nat → DirectoryEntry) :
    (new size junk).tableSize = size := by
  simp [new, tableSize]

/-- **Round trip** through memory. -/
theorem ofBytes_toBytes (directory : Directory) :
    ofBytes directory.tableSize directory.toBytes = directory := by
  obtain ⟨table⟩ := directory
  rw [ofBytes, mk.injEq]
  refine List.ext_getElem (by simp [tableSize]) fun i hi hi' => ?_
  rw [List.getElem_map, List.getElem_range]
  have hcell : ∀ k (hk : k < entrySize), (toBytes ⟨table⟩).getD (entrySize * i + k) 0
      = table[i].raw.get ⟨k, by rw [table[i].size]; exact hk⟩ := by
    intro k hk
    have h := ByteFile.getElem?_record DirectoryEntry.size [] hi' hk []
    rw [List.nil_append, List.append_nil, List.length_nil, Nat.zero_add] at h
    rw [List.getD_eq_getElem?_getD, toBytes, h,
      List.getElem?_eq_getElem (by rw [table[i].size]; exact hk), Option.getD_some,
      List.get_eq_getElem]
  generalize hentry : table[i] = entry at hcell
  obtain ⟨raw, hsize⟩ := entry
  rw [DirectoryEntry.ofTable, DirectoryEntry.mk.injEq]
  refine List.ext_getElem (by simp [hsize]) fun k hk hk' => ?_
  rw [List.getElem_map, List.getElem_range]
  exact hcell k (by simpa using hk)

theorem FetchFrom_eq (h : file.hdr.Sound) (disk : Disk)
    (hsize : file.hdr.size = directory.tableSize * entrySize) :
    directory.FetchFrom file disk
      = some (ofBytes directory.tableSize (file.hdr.contents disk)) := by
  have hsmall : directory.tableSize * entrySize < 2 ^ 31 := by
    rw [← hsize, FileHeader.size]
    have := file.hdr.numBytes.toInt_lt
    omega
  rw [FetchFrom, file.ReadAt_eq h disk (by omega) (by omega), Option.map_some, Int.toNat_zero,
    Int.toNat_natCast, readAt_whole (by rw [FileHeader.length_contents]; omega),
    writeAt_whole 0 (by rw [FileHeader.length_contents, hsize, length_toBytes])]

theorem WriteBack_spec (directory : Directory) (h : file.hdr.Sound) (disk : Disk)
    (junk : Nat → Byte) (hsize : file.hdr.size = directory.tableSize * entrySize) :
    ∃ disk', directory.WriteBack file disk junk = some disk' ∧
      file.hdr.contents disk' = directory.toBytes ∧ ∀ s ∉ file.hdr.sectors, disk' s = disk s := by
  have hsmall : directory.tableSize * entrySize < 2 ^ 31 := by
    rw [← hsize, FileHeader.size]
    have := file.hdr.numBytes.toInt_lt
    omega
  have hlength := directory.length_toBytes
  have hsource : ((directory.tableSize * entrySize : Nat) : Int) ≤ directory.toBytes.length := by
    omega
  obtain ⟨disk', hwrite, hcontents, hother⟩ :=
    file.WriteAt_spec h disk junk (Int.le_refl 0) (by omega) hsource
  refine ⟨disk', by rw [WriteBack, hwrite, Option.map_some], ?_, hother⟩
  rw [hcontents, Int.toNat_zero, Int.toNat_natCast, List.take_of_length_le (by omega),
    splice_whole (by rw [FileHeader.length_contents]; omega)]

end Directory

/-! ## The map on the disk -/

section Map

variable {freeMap : BitMap} {file : OpenFile} {disk : Disk}

theorem length_mapBytes (freeMap : BitMap) :
    (mapBytes freeMap).length = freeMap.map.length * 4 := by
  rw [mapBytes, Nat.mul_comm]
  exact Words.length_flatMap freeMap.map

theorem mapOfBytes_mapBytes {freeMap freeMap' : BitMap} (h : freeMap.numBits = freeMap'.numBits) :
    mapOfBytes freeMap (mapBytes freeMap') = freeMap' := by
  obtain ⟨numBits, map, hwords⟩ := freeMap
  obtain ⟨numBits', map', hwords'⟩ := freeMap'
  obtain rfl : numBits = numBits' := h
  have hmap : Words.words (map'.flatMap fun word => Words.bytesOf word) map.length = map' := by
    rw [hwords.trans hwords'.symm]
    exact Words.words_flatMap map'
  simp only [mapOfBytes, mapBytes]
  congr 1

theorem fetchMap_eq (h : file.hdr.Sound) (disk : Disk)
    (hsize : file.hdr.size = freeMap.map.length * 4) :
    fetchMap freeMap file disk = some (mapOfBytes freeMap (file.hdr.contents disk)) := by
  have hsmall : freeMap.map.length * 4 < 2 ^ 31 := by
    rw [← hsize, FileHeader.size]
    have := file.hdr.numBytes.toInt_lt
    omega
  rw [fetchMap, file.ReadAt_eq h disk (by omega) (by omega), Option.map_some, Int.toNat_zero,
    Int.toNat_natCast, readAt_whole (by rw [FileHeader.length_contents]; omega),
    writeAt_whole 0 (by rw [FileHeader.length_contents, hsize, length_mapBytes])]

theorem writeBackMap_spec (h : file.hdr.Sound) (disk : Disk) (junk : Nat → Byte)
    (hsize : file.hdr.size = freeMap.map.length * 4) :
    ∃ disk', writeBackMap freeMap file disk junk = some disk' ∧
      file.hdr.contents disk' = mapBytes freeMap ∧ ∀ s ∉ file.hdr.sectors, disk' s = disk s := by
  have hsmall : freeMap.map.length * 4 < 2 ^ 31 := by
    rw [← hsize, FileHeader.size]
    have := file.hdr.numBytes.toInt_lt
    omega
  have hlength := length_mapBytes freeMap
  have hsource : ((freeMap.map.length * 4 : Nat) : Int) ≤ (mapBytes freeMap).length := by
    omega
  obtain ⟨disk', hwrite, hcontents, hother⟩ :=
    file.WriteAt_spec h disk junk (Int.le_refl 0) (by omega) hsource
  refine ⟨disk', by rw [writeBackMap, hwrite, Option.map_some], ?_, hother⟩
  rw [hcontents, Int.toNat_zero, Int.toNat_natCast, List.take_of_length_le (by omega),
    splice_whole (by rw [FileHeader.length_contents]; omega)]

end Map

end DistributedAscii.NachOS.Filesys
