import DistributedAscii.NachOS.Filesys.Consistency

/-!
# NachOS — the calls of the file system on a consistent disk

What `format`, `Create`, `Open`, `Remove` and a write to a file do to the
files on the disk. None of them fails an assertion or leaves an array, and
all of them leave a consistent disk behind.
-/

namespace DistributedAscii.NachOS.Filesys.FileSystem

variable {fs : FileSystem} {disk disk' : Disk} {junk : Junk} {name : Name}
  {entry : DirectoryEntry}

/-- Sectors change hands between a file and the free ones. -/
theorem perm_transfer (reserved owned rest free : List Nat) :
    (reserved ++ (owned ++ rest) ++ free).Perm (reserved ++ rest ++ (owned ++ free)) := by
  rw [List.append_assoc, List.append_assoc, List.append_assoc]
  exact (List.perm_append_comm_assoc ..).append_left _

theorem header_congr (h : disk' entry.headerSector = disk entry.headerSector) :
    entry.header disk' = entry.header disk := by
  rw [DirectoryEntry.header, DirectoryEntry.header, h]

theorem owned_congr (h : disk' entry.headerSector = disk entry.headerSector) :
    entry.owned disk' = entry.owned disk := by
  rw [DirectoryEntry.owned, DirectoryEntry.owned, header_congr h]

/-- The bytes of a file. -/
def bytesOf (disk : Disk) (entry : DirectoryEntry) : List Byte :=
  (entry.header disk).contents disk

/-- A file none of whose sectors is touched. -/
theorem bytesOf_congr (hsound : (entry.header disk).Sound)
    (h : ∀ s ∈ entry.owned disk, disk' s = disk s) : bytesOf disk' entry = bytesOf disk entry := by
  rw [bytesOf, bytesOf, header_congr (h _ List.mem_cons_self)]
  exact FileHeader.contents_congr hsound fun s hs => h s (List.mem_cons_of_mem _ hs)

namespace Consistent

/-- One more file, over sectors that were free. -/
theorem insert (h : fs.Consistent disk) (hmounted : fs.Mounted disk')
    (hfiles : (fs.files disk').Perm (entry :: fs.files disk)) (hdisk : OnDisk entry.sector.toInt)
    (hsound : (entry.header disk').Sound) (hkey : ∀ other ∈ fs.files disk, other.key ≠ entry.key)
    (hothers : ∀ other ∈ fs.files disk, disk' other.headerSector = disk other.headerSector)
    (hfree : (entry.owned disk' ++ fs.free disk').Perm (fs.free disk)) : fs.Consistent disk' where
  toMounted := hmounted
  onDisk other hother := by
    rcases List.mem_cons.mp (hfiles.mem_iff.mp hother) with rfl | hold
    · exact hdisk
    · exact h.onDisk other hold
  header other hother := by
    rcases List.mem_cons.mp (hfiles.mem_iff.mp hother) with rfl | hold
    · exact hsound
    · rw [header_congr (hothers other hold)]
      exact h.header other hold
  keys := by
    rw [(hfiles.map _).nodup_iff, List.map_cons, List.nodup_cons]
    refine ⟨fun hmem => ?_, h.keys⟩
    obtain ⟨other, hother, hsame⟩ := List.mem_map.mp hmem
    exact hkey other hother hsame
  shared := by
    have hrest : (fs.files disk).flatMap (·.owned disk') = (fs.files disk).flatMap (·.owned disk) :=
      List.flatMap_congr fun other hother => owned_congr (hothers other hother)
    have hperm := hfiles.flatMap_right (·.owned disk')
    rw [List.flatMap_cons, hrest] at hperm
    calc (fs.reserved ++ (fs.files disk').flatMap (·.owned disk') ++ fs.free disk').Perm
          (fs.reserved ++ (entry.owned disk' ++ (fs.files disk).flatMap (·.owned disk))
            ++ fs.free disk') := (hperm.append_left _).append_right _
      List.Perm _ (fs.reserved ++ (fs.files disk).flatMap (·.owned disk)
            ++ (entry.owned disk' ++ fs.free disk')) := perm_transfer ..
      List.Perm _ (fs.reserved ++ (fs.files disk).flatMap (·.owned disk) ++ fs.free disk) :=
        hfree.append_left _
      List.Perm _ (List.range NumSectors) := h.shared

/-- One file less, whose sectors are free. -/
theorem erase (h : fs.Consistent disk) (hmounted : fs.Mounted disk')
    (hfiles : (fs.files disk).Perm (entry :: fs.files disk'))
    (hothers : ∀ other ∈ fs.files disk', disk' other.headerSector = disk other.headerSector)
    (hfree : (fs.free disk').Perm (entry.owned disk ++ fs.free disk)) : fs.Consistent disk' where
  toMounted := hmounted
  onDisk other hother := h.onDisk other (hfiles.mem_iff.mpr (List.mem_cons_of_mem _ hother))
  header other hother := by
    rw [header_congr (hothers other hother)]
    exact h.header other (hfiles.mem_iff.mpr (List.mem_cons_of_mem _ hother))
  keys := by
    have hkeys := h.keys
    rw [(hfiles.map _).nodup_iff, List.map_cons, List.nodup_cons] at hkeys
    exact hkeys.2
  shared := by
    have hrest : (fs.files disk').flatMap (·.owned disk')
        = (fs.files disk').flatMap (·.owned disk) :=
      List.flatMap_congr fun other hother => owned_congr (hothers other hother)
    have hperm := hfiles.flatMap_right (·.owned disk)
    rw [List.flatMap_cons] at hperm
    rw [hrest]
    calc (fs.reserved ++ (fs.files disk').flatMap (·.owned disk) ++ fs.free disk').Perm
          (fs.reserved ++ (fs.files disk').flatMap (·.owned disk)
            ++ (entry.owned disk ++ fs.free disk)) := hfree.append_left _
      List.Perm _ (fs.reserved ++ (entry.owned disk ++ (fs.files disk').flatMap (·.owned disk))
            ++ fs.free disk) := (perm_transfer ..).symm
      List.Perm _ (fs.reserved ++ (fs.files disk).flatMap (·.owned disk) ++ fs.free disk) :=
        (hperm.symm.append_left _).append_right _
      List.Perm _ (List.range NumSectors) := h.shared

end Consistent

/-! ## Open -/

theorem find_of_mem (h : fs.Consistent disk) (hentry : entry ∈ fs.files disk)
    (hkey : entry.key = name.key) :
    (fs.directory disk).Find name = entry.sector.toInt :=
  Directory.Find_of_mem h.keys hentry hkey

theorem fetchHeader_eq (h : fs.Consistent disk) (hentry : entry ∈ fs.files disk) :
    FileHeader.FetchFrom disk entry.sector.toInt = some (entry.header disk) := by
  rw [FileHeader.FetchFrom, Disk.ReadSector, if_pos (h.onDisk entry hentry), Option.map_some]
  rfl

/-- **`Open`** of a file that there is. -/
theorem Open_of_mem (h : fs.Consistent disk) (junk : Junk) (hentry : entry ∈ fs.files disk)
    (hkey : entry.key = name.key) :
    fs.Open disk junk name = some (some { hdr := entry.header disk, seekPosition := 0 }) := by
  rw [Open, h.fetchDirectory_eq, Option.bind_eq_bind, Option.bind_some, find_of_mem h hentry hkey,
    if_pos (h.onDisk entry hentry).1, OpenFile.new, fetchHeader_eq h hentry]
  rfl

theorem Open_of_absent (h : fs.Consistent disk) (junk : Junk)
    (habsent : ∀ entry ∈ fs.files disk, entry.key ≠ name.key) :
    fs.Open disk junk name = some none := by
  rw [Open, h.fetchDirectory_eq, Option.bind_eq_bind, Option.bind_some,
    Directory.Find_of_absent habsent]
  rfl

/-! ## Create -/

theorem Create_of_mem (h : fs.Consistent disk) (junk : Junk) (hentry : entry ∈ fs.files disk)
    (hkey : entry.key = name.key) (initialSize : Int32) :
    fs.Create disk junk name initialSize = some (disk, false) := by
  have h0 := (h.onDisk entry hentry).1
  rw [Create, h.fetchDirectory_eq, Option.bind_eq_bind, Option.bind_some,
    find_of_mem h hentry hkey, if_pos (by omega)]

/-- The free sectors begin with one that can hold the header. -/
theorem free_eq_cons (h : fs.Consistent disk) :
    ∃ sector rest,
      fs.free disk = sector :: rest ∧ NumDirect ≤ rest.length ∧ sector < NumSectors := by
  have hroom := h.room
  obtain ⟨sector, rest, hfree⟩ := List.exists_cons_of_ne_nil
    (List.ne_nil_of_length_pos (show 0 < (fs.free disk).length by omega))
  refine ⟨sector, rest, hfree, ?_, ?_⟩
  · rw [hfree, List.length_cons] at hroom
    omega
  · exact (BitMap.mem_clearBits.mp (hfree ▸ List.mem_cons_self : sector ∈ fs.free disk)).1

theorem Create_of_full (h : fs.Consistent disk) (junk : Junk)
    (hfull : (fs.files disk).length = NumDirEntries) (initialSize : Int32) :
    fs.Create disk junk name initialSize = some (disk, false) := by
  obtain ⟨sector, rest, hfree, -, -⟩ := free_eq_cons h
  have hadd : (fs.directory disk).Add name (.ofInt sector) = (fs.directory disk, false) :=
    Directory.Add_of_full (hfull.trans (Directory.tableSize_ofBytes ..).symm) _
  rw [Create, h.fetchDirectory_eq, Option.bind_eq_bind, Option.bind_some]
  split
  · rfl
  · rw [h.fetchMap_eq, Option.bind_eq_bind, Option.bind_some, BitMap.Find_of_clearBits hfree]
    dsimp only
    rw [if_neg (by omega), hadd]
    rfl

/-- The write-backs of `Create`: a header goes to a free sector, then the
directory and the map go back. -/
theorem Consistent.writeNew (h : fs.Consistent disk) (junk : Junk) {sector : Nat}
    (hsector : sector ∈ fs.free disk) (hdr : FileHeader) {directory' : Directory}
    (htable : directory'.tableSize = NumDirEntries) {freeMap' : BitMap}
    (hbits : freeMap'.numBits = NumSectors) :
    ∃ disk₁ disk₂ disk₃, hdr.WriteBack disk sector = some disk₁ ∧
      directory'.WriteBack fs.directoryFile disk₁ junk.buffer = some disk₂ ∧
      writeBackMap freeMap' fs.freeMapFile disk₂ junk.buffer = some disk₃ ∧
      fs.Mounted disk₃ ∧ fs.freeMap disk₃ = freeMap' ∧ fs.files disk₃ = directory'.used ∧
      disk₃ sector = hdr.toSector ∧ ∀ s ∉ fs.reserved, s ≠ sector → disk₃ s = disk s := by
  have hlt : sector < NumSectors := (BitMap.mem_clearBits.mp hsector).1
  have hfree : ∀ s ∈ fs.reserved, s ≠ sector := fun s hs heq =>
    h.reserved_not_free hs (heq ▸ hsector)
  obtain ⟨disk₁, hdisk₁⟩ : ∃ disk₁, disk₁ = Function.update disk sector hdr.toSector := ⟨_, rfl⟩
  have hwrite₁ : hdr.WriteBack disk sector = some disk₁ := by
    rw [FileHeader.WriteBack, Disk.WriteSector, if_pos ⟨by omega, by omega⟩, Int.toNat_natCast,
      hdisk₁]
  have hmounted₁ : fs.Mounted disk₁ := h.toMounted.congr
    (by rw [hdisk₁, Function.update_of_ne (hfree 0 (by simp [reserved]))])
    (by rw [hdisk₁, Function.update_of_ne (hfree 1 (by simp [reserved]))])
  obtain ⟨disk₂, hwrite₂, hmounted₂, -, hdirectory₂, hother₂⟩ :=
    hmounted₁.writeBackDirectory_eq junk.buffer directory' htable
  obtain ⟨disk₃, hwrite₃, hmounted₃, hmap₃, hdirectory₃, hother₃⟩ :=
    hmounted₂.writeBackMap_eq junk.buffer hbits
  refine ⟨disk₁, disk₂, disk₃, hwrite₁, hwrite₂, hwrite₃, hmounted₃, hmap₃, ?_, ?_, ?_⟩
  · rw [files, hdirectory₃, hdirectory₂]
  · rw [hother₃ sector fun hs => hfree sector (by simp [reserved, hs]) rfl,
      hother₂ sector fun hs => hfree sector (by simp [reserved, hs]) rfl, hdisk₁,
      Function.update_self]
  · intro s hres hne
    simp only [reserved, List.mem_cons, List.mem_append, not_or] at hres
    rw [hother₃ s hres.2.2.1, hother₂ s hres.2.2.2, hdisk₁, Function.update_of_ne hne]

/-- **`Create`** of a file that there is not: the disk has room for it, it
gets free sectors only, and no sector of another file is touched. -/
theorem Create_spec (h : fs.Consistent disk) (junk : Junk)
    (habsent : ∀ entry ∈ fs.files disk, entry.key ≠ name.key)
    (hroom : (fs.files disk).length < NumDirEntries) {initialSize : Int32}
    (hsize : initialSize.toInt ≤ MaxFileSize) :
    ∃ disk' entry, fs.Create disk junk name initialSize = some (disk', true) ∧
      fs.Consistent disk' ∧ (fs.files disk').Perm (entry :: fs.files disk) ∧
      entry.key = name.key ∧ (entry.header disk').numBytes = initialSize ∧
      ∀ other ∈ fs.files disk, ∀ s ∈ other.owned disk, disk' s = disk s := by
  obtain ⟨sector, rest, hfree, hrest, hlt⟩ := free_eq_cons h
  have hmem : sector ∈ fs.free disk := by
    rw [hfree]
    exact List.mem_cons_self
  have hsmall : sector < 2 ^ 31 := hlt.trans (by decide)
  have hsector : (Int32.ofInt sector).toInt = sector := Int32.toInt_ofNat_of_lt hsmall
  obtain ⟨directory', entry, hadd, htable, hkey, hentry, hused⟩ :=
    Directory.Add_spec name habsent (by rwa [FileSystem.directory, Directory.tableSize_ofBytes])
      (.ofInt sector)
  have htable : directory'.tableSize = NumDirEntries :=
    htable.trans (Directory.tableSize_ofBytes ..)
  have hheader : entry.headerSector = sector := by
    rw [DirectoryEntry.headerSector, hentry, hsector, Int.toNat_natCast]
  have hmarked : ((fs.freeMap disk).markBit sector).clearBits = rest :=
    BitMap.clearBits_markBit hfree
  -- behind the sector of the header there are always enough left for the data
  obtain ⟨hdr, freeMap', hallocate, hsound, hbytes, hbits, hsplit⟩ := junk.hdr.Allocate_spec
    ((fs.freeMap disk).markBit sector) initialSize rfl hsize (by
      rw [hmarked]
      exact (divRoundUp_le (by decide) hsize).trans (by exact_mod_cast hrest))
  rw [hmarked] at hsplit
  obtain ⟨disk₁, disk₂, disk₃, hwrite₁, hwrite₂, hwrite₃, hmounted, hmap, hdirectory, hat, hkeep⟩ :=
    h.writeNew junk hmem hdr htable hbits
  have hothers : ∀ other ∈ fs.files disk, ∀ s ∈ other.owned disk, disk₃ s = disk s := by
    intro other hother s hs
    refine hkeep s (h.not_reserved hother hs) fun heq => ?_
    exact h.not_free hother hs (heq ▸ hmem)
  have hnew : entry.header disk₃ = hdr := by
    rw [DirectoryEntry.header, hheader, hat, FileHeader.ofSector_toSector]
  have hfiles : (fs.files disk₃).Perm (entry :: fs.files disk) := by
    rw [hdirectory]
    exact hused
  have howned : (entry.owned disk₃ ++ fs.free disk₃).Perm (fs.free disk) := by
    rw [DirectoryEntry.owned, hheader, hnew, free, hmap, hfree, hsplit, List.cons_append]
  refine ⟨disk₃, entry, ?_, ?_, hfiles, hkey, by rw [hnew, hbytes], hothers⟩
  · -- the statements of the source, one behind the other
    rw [Create, h.fetchDirectory_eq, Option.bind_eq_bind, Option.bind_some,
      Directory.Find_of_absent habsent, if_neg (by simp), h.fetchMap_eq, Option.bind_eq_bind,
      Option.bind_some, BitMap.Find_of_clearBits hfree]
    dsimp only
    rw [if_neg (by omega), hadd]
    dsimp only
    rw [if_neg (by simp), hallocate, Option.bind_eq_bind, Option.bind_some]
    dsimp only
    rw [if_neg (by simp), hwrite₁]
    simp only [Option.bind_eq_bind, Option.bind_some, hwrite₂, hwrite₃]
  · refine h.insert hmounted hfiles ?_ ?_ ?_ (fun other hother => ?_) howned
    · rw [hentry, hsector]
      exact ⟨by omega, by omega⟩
    · rwa [hnew]
    · rwa [hkey]
    · exact hothers other hother _ List.mem_cons_self

/-! ## Remove -/

theorem Remove_of_absent (h : fs.Consistent disk) (junk : Junk)
    (habsent : ∀ entry ∈ fs.files disk, entry.key ≠ name.key) :
    fs.Remove disk junk name = some (disk, false) := by
  rw [Remove, h.fetchDirectory_eq, Option.bind_eq_bind, Option.bind_some,
    Directory.Find_of_absent habsent]
  rfl

/-- **`Remove`** of a file that there is: its sectors are free, and only the
map and the directory are written. -/
theorem Remove_spec (h : fs.Consistent disk) (junk : Junk) (hentry : entry ∈ fs.files disk)
    (hkey : entry.key = name.key) :
    ∃ disk', fs.Remove disk junk name = some (disk', true) ∧ fs.Consistent disk' ∧
      (fs.files disk).Perm (entry :: fs.files disk') ∧ ∀ s ∉ fs.reserved, disk' s = disk s := by
  obtain ⟨h0, hlt⟩ := h.onDisk entry hentry
  obtain ⟨directory', hremove, htable, hused⟩ :=
    Directory.Remove_spec h.keys hentry hkey
  have htable : directory'.tableSize = NumDirEntries :=
    htable.trans (Directory.tableSize_ofBytes ..)
  obtain ⟨freeMap₁, hdeallocate, hbits₁, hfree₁⟩ :=
    FileHeader.Deallocate_spec (h.header entry hentry) (fs.freeMap disk) rfl
      fun s hs => h.not_free hentry (List.mem_cons_of_mem _ hs)
  have hset : entry.headerSector ∉ freeMap₁.clearBits := by
    rw [hfree₁.mem_iff, List.mem_append, not_or]
    exact ⟨h.headerSector_not_mem hentry, h.not_free hentry List.mem_cons_self⟩
  have hrange : freeMap₁.InRange entry.sector.toInt := ⟨h0, by rw [hbits₁]; exact hlt⟩
  obtain ⟨freeMap₂, hfreeMap₂⟩ : ∃ freeMap₂, freeMap₂ = freeMap₁.clearBit entry.headerSector :=
    ⟨_, rfl⟩
  have hfree₂ : freeMap₂.clearBits.Perm (entry.owned disk ++ fs.free disk) := by
    rw [hfreeMap₂]
    exact (BitMap.clearBits_clearBit hrange.toNat_lt hset).trans (hfree₁.cons _)
  have hclear : freeMap₁.Clear entry.sector.toInt = some freeMap₂ := by
    rw [BitMap.Clear, if_pos hrange, hfreeMap₂]
    rfl
  have hbits₂ : freeMap₂.numBits = NumSectors := by rw [hfreeMap₂]; exact hbits₁
  obtain ⟨disk₁, hwrite₁, hmounted₁, hmap₁, -, hother₁⟩ :=
    h.toMounted.writeBackMap_eq junk.buffer hbits₂
  obtain ⟨disk₂, hwrite₂, hmounted₂, hmap₂, hdirectory₂, hother₂⟩ :=
    hmounted₁.writeBackDirectory_eq junk.buffer directory' htable
  -- the header of the file stays on the disk; only the map and the directory are written
  have hkeep : ∀ s ∉ fs.reserved, disk₂ s = disk s := by
    intro s hres
    simp only [reserved, List.mem_cons, List.mem_append, not_or] at hres
    rw [hother₂ s hres.2.2.2, hother₁ s hres.2.2.1]
  have hfiles : (fs.files disk).Perm (entry :: fs.files disk₂) := by
    rw [files, files, hdirectory₂]
    exact hused
  refine ⟨disk₂, ?_, ?_, hfiles, hkeep⟩
  · rw [Remove, h.fetchDirectory_eq, Option.bind_eq_bind, Option.bind_some,
      find_of_mem h hentry hkey]
    dsimp only
    rw [if_neg (by omega), fetchHeader_eq h hentry, h.fetchMap_eq]
    simp only [Option.bind_eq_bind, Option.bind_some, hdeallocate, hclear, hremove, hwrite₁,
      hwrite₂]
  · refine h.erase hmounted₂ hfiles (fun other hother => ?_) ?_
    · exact hkeep _ (h.not_reserved (hfiles.mem_iff.mpr (List.mem_cons_of_mem _ hother))
        List.mem_cons_self)
    · rw [free, hmap₂, hmap₁]
      exact hfree₂

/-! ## The bytes of a file -/

/-- **A write to the data of a file** keeps the files, the free sectors and
the bytes of every other file. -/
theorem Consistent.write (h : fs.Consistent disk) (hentry : entry ∈ fs.files disk)
    (hsame : ∀ s ∉ (entry.header disk).sectors, disk' s = disk s) :
    fs.Consistent disk' ∧ fs.files disk' = fs.files disk ∧
      (∀ other ∈ fs.files disk, other.header disk' = other.header disk) ∧
      ∀ other ∈ fs.files disk, other ≠ entry → bytesOf disk' other = bytesOf disk other := by
  have hreserved : ∀ s ∈ fs.reserved, disk' s = disk s := fun s hs =>
    hsame s fun hs' => h.not_reserved hentry (List.mem_cons_of_mem _ hs') hs
  have hothers : ∀ other ∈ fs.files disk, other ≠ entry → ∀ s ∈ other.owned disk,
      disk' s = disk s := fun other hother hne s hs =>
    hsame s fun hs' => hne (h.owner_unique hother hentry hs (List.mem_cons_of_mem _ hs'))
  have hheaders : ∀ other ∈ fs.files disk, disk' other.headerSector = disk other.headerSector := by
    intro other hother
    by_cases heq : other = entry
    · subst heq
      exact hsame _ (h.headerSector_not_mem hother)
    · exact hothers other hother heq _ List.mem_cons_self
  have hmap : fs.freeMap disk' = fs.freeMap disk := by
    rw [FileSystem.freeMap, FileSystem.freeMap, FileHeader.contents_congr h.mapSound]
    exact fun s hs => hreserved s (by simp [reserved, hs])
  have hdirectory : fs.directory disk' = fs.directory disk := by
    rw [FileSystem.directory, FileSystem.directory, FileHeader.contents_congr h.dirSound]
    exact fun s hs => hreserved s (by simp [reserved, hs])
  have hfiles : fs.files disk' = fs.files disk := by rw [files, files, hdirectory]
  have howned : (fs.files disk).flatMap (·.owned disk') = (fs.files disk).flatMap (·.owned disk) :=
    List.flatMap_congr fun other hother => owned_congr (hheaders other hother)
  refine ⟨{ h.toMounted.congr (hreserved 0 (by simp [reserved])) (hreserved 1 (by simp [reserved]))
      with onDisk := ?_, header := ?_, keys := ?_, shared := ?_ }, hfiles,
    fun other hother => header_congr (hheaders other hother),
    fun other hother hne => bytesOf_congr (h.header other hother) (hothers other hother hne)⟩
  · rw [hfiles]
    exact h.onDisk
  · intro other hother
    rw [hfiles] at hother
    rw [header_congr (hheaders other hother)]
    exact h.header other hother
  · rw [hfiles]
    exact h.keys
  · rw [hfiles, howned, free, hmap]
    exact h.shared

/-! ## The formatted disk -/

/-- A header on the disk that is opened. -/
theorem new_of_header {hdr : FileHeader} {sector : Int} (hdisk : OnDisk sector)
    (h : disk sector.toNat = hdr.toSector) :
    OpenFile.new disk sector = some { hdr, seekPosition := 0 } := by
  rw [OpenFile.new, FileHeader.FetchFrom, Disk.ReadSector, if_pos hdisk, h, Option.map_some,
    FileHeader.ofSector_toSector, Option.map_some]

/-- The map of `format` behind its two `Mark`s. -/
def markedMap : BitMap :=
  ((BitMap.new NumSectors).markBit 0).markBit 1

theorem mark_markedMap : ((BitMap.new NumSectors).markBit 0).Mark DirectorySector
    = some markedMap := rfl

theorem range_eq_cons : List.range NumSectors = 0 :: 1 :: List.range' 2 1022 := by
  rw [List.range_eq_range']
  rfl

theorem clearBits_markedMap : markedMap.clearBits = List.range' 2 1022 :=
  BitMap.clearBits_markBit (BitMap.clearBits_markBit (by rw [BitMap.clearBits_new, range_eq_cons]))

/-- The headers of the two files: they share out the sectors with what is
left in the map. -/
theorem format_allocates (junk : Junk) :
    ∃ mapHdr freeMap₁ dirHdr freeMap₂,
      junk.hdr.Allocate markedMap (.ofNat FreeMapFileSize) = some (mapHdr, freeMap₁, true) ∧
      junk.hdr.Allocate freeMap₁ (.ofNat DirectoryFileSize) = some (dirHdr, freeMap₂, true) ∧
      (mapHdr.Sound ∧ mapHdr.size = FreeMapFileSize) ∧
      (dirHdr.Sound ∧ dirHdr.size = DirectoryFileSize) ∧ freeMap₂.numBits = NumSectors ∧
      List.range NumSectors
        = 0 :: 1 :: (mapHdr.sectors ++ dirHdr.sectors ++ freeMap₂.clearBits) := by
  obtain ⟨mapHdr, freeMap₁, hmapAllocate, hmapSound, hmapBytes, hbits₁, hmapSplit⟩ :=
    junk.hdr.Allocate_spec markedMap (.ofNat FreeMapFileSize) rfl (by decide)
      (by rw [clearBits_markedMap, List.length_range']; decide)
  have hmapSize : mapHdr.size = FreeMapFileSize := by
    rw [FileHeader.size, hmapBytes]
    rfl
  have hmapLength : mapHdr.sectors.length = 1 := by
    have hone : divRoundUp FreeMapFileSize SectorSize = 1 := by decide
    have := hmapSound.length_sectors_of_size hmapSize (by decide)
    omega
  obtain ⟨dirHdr, freeMap₂, hdirAllocate, hdirSound, hdirBytes, hbits₂, hdirSplit⟩ :=
    junk.hdr.Allocate_spec freeMap₁ (.ofNat DirectoryFileSize) hbits₁ (by decide) (by
      have hlength := congrArg List.length hmapSplit
      rw [clearBits_markedMap, List.length_range', List.length_append, hmapLength] at hlength
      have htwo : divRoundUp (Int32.ofNat DirectoryFileSize).toInt SectorSize = 2 := by decide
      omega)
  have hdirSize : dirHdr.size = DirectoryFileSize := by
    rw [FileHeader.size, hdirBytes]
    rfl
  refine ⟨mapHdr, freeMap₁, dirHdr, freeMap₂, hmapAllocate, hdirAllocate, ⟨hmapSound, hmapSize⟩,
    ⟨hdirSound, hdirSize⟩, hbits₂, ?_⟩
  rw [range_eq_cons, ← clearBits_markedMap, hmapSplit, hdirSplit, List.append_assoc]

/-- A disk with the two headers is mounted. -/
theorem mounted_of_headers {mapHdr dirHdr : FileHeader} (hmap : disk 0 = mapHdr.toSector)
    (hdir : disk 1 = dirHdr.toSector) (hmapHdr : mapHdr.Sound ∧ mapHdr.size = FreeMapFileSize)
    (hdirHdr : dirHdr.Sound ∧ dirHdr.size = DirectoryFileSize)
    (hapart : (0 :: 1 :: (mapHdr.sectors ++ dirHdr.sectors)).Nodup) :
    Mounted ⟨⟨mapHdr, 0⟩, ⟨dirHdr, 0⟩⟩ disk := by
  refine ⟨?_, hmapHdr.1, hmapHdr.2, hdirHdr.1, hdirHdr.2, hapart⟩
  have hmapFile : OpenFile.new disk FreeMapSector = some ⟨mapHdr, 0⟩ :=
    new_of_header (by decide) hmap
  have hdirFile : OpenFile.new disk DirectorySector = some ⟨dirHdr, 0⟩ :=
    new_of_header (by decide) hdir
  rw [FileSystem.mount, hmapFile, hdirFile]
  rfl

/-- The statements of `format`, one behind the other. -/
theorem format_eq {freeMap₀ freeMap freeMap₁ freeMap₂ : BitMap} {mapHdr dirHdr : FileHeader}
    {disk₀ disk₁ disk₂ disk₃ : Disk}
    (hmark₀ : (BitMap.new NumSectors).Mark FreeMapSector = some freeMap₀)
    (hmark : freeMap₀.Mark DirectorySector = some freeMap)
    (hmapAllocate : junk.hdr.Allocate freeMap (.ofNat FreeMapFileSize)
      = some (mapHdr, freeMap₁, true))
    (hdirAllocate : junk.hdr.Allocate freeMap₁ (.ofNat DirectoryFileSize)
      = some (dirHdr, freeMap₂, true))
    (hwrite₀ : mapHdr.WriteBack disk FreeMapSector = some disk₀)
    (hwrite₁ : dirHdr.WriteBack disk₀ DirectorySector = some disk₁)
    (hmapFile : OpenFile.new disk₁ FreeMapSector = some fs.freeMapFile)
    (hdirFile : OpenFile.new disk₁ DirectorySector = some fs.directoryFile)
    (hwrite₂ : writeBackMap freeMap₂ fs.freeMapFile disk₁ junk.buffer = some disk₂)
    (hwrite₃ : (Directory.new NumDirEntries junk.entries).WriteBack fs.directoryFile disk₂
      junk.buffer = some disk₃) : format disk junk = some (disk₃, fs) := by
  have hfs : FileSystem.mk fs.freeMapFile fs.directoryFile = fs := rfl
  simp only [format, Option.bind_eq_bind, Option.bind_some, hmark₀, hmark, hmapAllocate,
    hdirAllocate, hwrite₀, hwrite₁, hmapFile, hdirFile, hwrite₂, hwrite₃, not_true_eq_false,
    if_false, hfs]

/-- **`FileSystem(true)`** makes a consistent disk without files out of any
disk. -/
theorem format_spec (disk : Disk) (junk : Junk) :
    ∃ disk' fs,
      format disk junk = some (disk', fs) ∧ fs.Consistent disk' ∧ fs.files disk' = [] := by
  obtain ⟨mapHdr, freeMap₁, dirHdr, freeMap₂, hmapAllocate, hdirAllocate, hmapHdr, hdirHdr, hbits,
    hsplit⟩ := format_allocates junk
  have hapart : (0 :: 1 :: (mapHdr.sectors ++ dirHdr.sectors)).Nodup := by
    have hnodup := List.nodup_range (n := NumSectors)
    rw [hsplit, ← List.cons_append, ← List.cons_append] at hnodup
    exact (List.nodup_append.mp hnodup).1
  obtain ⟨disk₁, hdisk₁⟩ : ∃ disk₁,
      disk₁ = Function.update (Function.update disk 0 mapHdr.toSector) 1 dirHdr.toSector := ⟨_, rfl⟩
  obtain ⟨fs, hfs⟩ : ∃ fs : FileSystem, fs = ⟨⟨mapHdr, 0⟩, ⟨dirHdr, 0⟩⟩ := ⟨_, rfl⟩
  have hmounted₁ : fs.Mounted disk₁ := by
    rw [hfs]
    exact mounted_of_headers (by rw [hdisk₁]; rfl) (by rw [hdisk₁]; rfl) hmapHdr hdirHdr hapart
  obtain ⟨disk₂, hwrite₂, hmounted₂, hmap₂, -, -⟩ := hmounted₁.writeBackMap_eq junk.buffer hbits
  obtain ⟨disk₃, hwrite₃, hmounted₃, hmap₃, hdirectory₃, -⟩ :=
    hmounted₂.writeBackDirectory_eq junk.buffer
      (.new NumDirEntries junk.entries) (Directory.tableSize_new ..)
  have hfiles : fs.files disk₃ = [] := by
    rw [files, hdirectory₃, Directory.used_new]
  refine ⟨disk₃, fs, ?_, { hmounted₃ with onDisk := ?_, header := ?_, keys := ?_, shared := ?_ },
    hfiles⟩
  · have hwrite₁ : dirHdr.WriteBack (Function.update disk 0 mapHdr.toSector) DirectorySector
        = some disk₁ := by
      rw [hdisk₁]
      rfl
    have hmapFile : OpenFile.new disk₁ FreeMapSector = some fs.freeMapFile := by
      rw [hfs]
      exact new_of_header (by decide) (by rw [hdisk₁]; rfl)
    have hdirFile : OpenFile.new disk₁ DirectorySector = some fs.directoryFile := by
      rw [hfs]
      exact new_of_header (by decide) (by rw [hdisk₁]; rfl)
    exact format_eq rfl mark_markedMap hmapAllocate hdirAllocate rfl hwrite₁ hmapFile hdirFile
      hwrite₂ hwrite₃
  · simp [hfiles]
  · simp [hfiles]
  · simp [hfiles]
  · rw [hfiles, hsplit, reserved, free, hmap₃, hmap₂, hfs]
    simp

end DistributedAscii.NachOS.Filesys.FileSystem
