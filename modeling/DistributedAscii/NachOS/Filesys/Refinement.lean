import Mathlib.Data.Set.Card
import DistributedAscii.NachOS.Filesys.Sessions

/-!
# NachOS — the file system is a store of files

`System.store` reads the files off the disk and the positions off the
handles. Every proper call, made on a disk that is consistent, comes to an
end, leaves a consistent disk behind and answers as the store does
(`Sound.step`), so that a session that begins with the formatting of any
disk is a session of the store (`session_refines`).
-/

namespace DistributedAscii.NachOS.Filesys

open Lib Lib.Blocks

namespace FileSystem

variable {fs : FileSystem} {disk disk' : Disk} {entry : DirectoryEntry} {key : List Byte}

/-- The bytes of the file with a key. -/
def lookup (fs : FileSystem) (disk : Disk) (key : List Byte) : Option (List Byte) :=
  ((fs.files disk).find? fun entry => entry.key = key).map (bytesOf disk)

theorem lookup_eq_none : fs.lookup disk key = none ↔ ∀ entry ∈ fs.files disk, entry.key ≠ key := by
  simp [lookup]

theorem lookup_ne_none : fs.lookup disk key ≠ none ↔ ∃ entry ∈ fs.files disk, entry.key = key := by
  rw [Ne, lookup_eq_none]
  push Not
  rfl

namespace Consistent

theorem lookup_eq_some (h : fs.Consistent disk) {bytes : List Byte} :
    fs.lookup disk key = some bytes ↔
      ∃ entry ∈ fs.files disk, entry.key = key ∧ bytesOf disk entry = bytes := by
  rw [lookup, Option.map_eq_some_iff]
  constructor
  · rintro ⟨entry, hfind, rfl⟩
    exact ⟨entry, List.mem_of_find?_eq_some hfind, by simpa using List.find?_some hfind, rfl⟩
  · rintro ⟨entry, hentry, rfl, rfl⟩
    cases hfind : (fs.files disk).find? fun other => other.key = entry.key with
    | none => simpa using List.find?_eq_none.mp hfind entry hentry
    | some other =>
        have hkey : other.key = entry.key := by simpa using List.find?_some hfind
        exact ⟨other, rfl, by rw [h.key_inj (List.mem_of_find?_eq_some hfind) hentry hkey]⟩

theorem lookup_of_mem (h : fs.Consistent disk) (hentry : entry ∈ fs.files disk) :
    fs.lookup disk entry.key = some (bytesOf disk entry) :=
  h.lookup_eq_some.mpr ⟨entry, hentry, rfl, rfl⟩

/-- Two disks with the same file under a key. -/
theorem lookup_congr (h : fs.Consistent disk) (h' : fs.Consistent disk')
    (hmem : ∀ entry, entry.key = key → (entry ∈ fs.files disk' ↔ entry ∈ fs.files disk))
    (hbytes : ∀ entry ∈ fs.files disk, entry.key = key → bytesOf disk' entry = bytesOf disk entry) :
    fs.lookup disk' key = fs.lookup disk key := by
  ext bytes
  rw [h.lookup_eq_some, h'.lookup_eq_some]
  constructor
  · rintro ⟨entry, hentry, hkey, rfl⟩
    have hold := (hmem entry hkey).mp hentry
    exact ⟨entry, hold, hkey, (hbytes entry hold hkey).symm⟩
  · rintro ⟨entry, hentry, hkey, rfl⟩
    exact ⟨entry, (hmem entry hkey).mpr hentry, hkey, hbytes entry hentry hkey⟩

theorem lookup_insert (h : fs.Consistent disk) (h' : fs.Consistent disk')
    (hfiles : (fs.files disk').Perm (entry :: fs.files disk))
    (hbytes : ∀ other ∈ fs.files disk, bytesOf disk' other = bytesOf disk other) :
    fs.lookup disk' = Function.update (fs.lookup disk) entry.key (some (bytesOf disk' entry)) := by
  funext key
  by_cases hkey : key = entry.key
  · subst hkey
    rw [Function.update_self, h'.lookup_of_mem (hfiles.mem_iff.mpr List.mem_cons_self)]
  · rw [Function.update_of_ne hkey]
    refine h.lookup_congr h' (fun other hother => ?_) fun other hother _ => hbytes other hother
    rw [hfiles.mem_iff, List.mem_cons, or_iff_right]
    rintro rfl
    exact hkey hother.symm

theorem lookup_erase (h : fs.Consistent disk) (h' : fs.Consistent disk')
    (hfiles : (fs.files disk).Perm (entry :: fs.files disk'))
    (hbytes : ∀ other ∈ fs.files disk, bytesOf disk' other = bytesOf disk other) :
    fs.lookup disk' = Function.update (fs.lookup disk) entry.key none := by
  funext key
  have hkeys := h.keys
  rw [(hfiles.map _).nodup_iff, List.map_cons, List.nodup_cons] at hkeys
  by_cases hkey : key = entry.key
  · subst hkey
    rw [Function.update_self, lookup_eq_none]
    intro other hother heq
    exact hkeys.1 (heq ▸ List.mem_map_of_mem hother)
  · rw [Function.update_of_ne hkey]
    refine h.lookup_congr h' (fun other hother => ?_) fun other hother _ => hbytes other hother
    rw [hfiles.mem_iff, List.mem_cons, or_iff_right]
    rintro rfl
    exact hkey hother.symm

theorem lookup_write (h : fs.Consistent disk) (h' : fs.Consistent disk')
    (hentry : entry ∈ fs.files disk) (hfiles : fs.files disk' = fs.files disk)
    (hbytes : ∀ other ∈ fs.files disk, other ≠ entry → bytesOf disk' other = bytesOf disk other) :
    fs.lookup disk' = Function.update (fs.lookup disk) entry.key (some (bytesOf disk' entry)) := by
  funext key
  by_cases hkey : key = entry.key
  · subst hkey
    rw [Function.update_self, h'.lookup_of_mem (hfiles ▸ hentry)]
  · rw [Function.update_of_ne hkey]
    refine h.lookup_congr h' (fun other _ => by rw [hfiles]) fun other hother hkey' => ?_
    refine hbytes other hother ?_
    rintro rfl
    exact hkey hkey'.symm

/-- There are as many keys as files. -/
theorem ncard_keys (h : fs.Consistent disk) :
    {key | fs.lookup disk key ≠ none}.ncard = (fs.files disk).length := by
  have hkeys : {key | fs.lookup disk key ≠ none}
      = (((fs.files disk).map DirectoryEntry.key).toFinset : Set (List Byte)) := by
    ext key
    simp [lookup_ne_none]
  rw [hkeys, Set.ncard_coe_finset, List.toFinset_card_of_nodup h.keys, List.length_map]

end Consistent

end FileSystem

/-- The store that the disk and the handles stand for. -/
def System.store (s : System) : Store where
  files := s.fs.lookup s.disk
  handles id := (s.live id).map fun handle => (handle.key, handle.file.seekPosition)

namespace System

variable {s s' : System} {e : Event} {id : Nat} {handle : Handle}

/-- The disk is consistent, and a handle has the header of its file. -/
structure Sound (s : System) : Prop where
  consistent : s.fs.Consistent s.disk
  handle : ∀ {id handle}, s.live id = some handle →
    ∃ entry ∈ s.fs.files s.disk, entry.key = handle.key ∧ handle.file.hdr = entry.header s.disk

theorem handles_of_live (h : s.live id = some handle) :
    s.handles id = some handle ∧ handle.live = true :=
  Option.filter_eq_some_iff.mp h

theorem store_handle (h : s.live id = some handle) :
    s.store.handles id = some (handle.key, handle.file.seekPosition) := by
  simp only [store, h, Option.map_some]

/-- What a handle stands for in the store. -/
def position (handle : Option Handle) : Option (List Byte × Int) :=
  (handle.filter Handle.live).map fun handle => (handle.key, handle.file.seekPosition)

theorem live_setHandle (s : System) (id : Nat) (new : Option Handle) :
    (s.setHandle id new).live = Function.update s.live id (new.filter Handle.live) := by
  funext other
  by_cases heq : other = id
  · subst heq
    simp [live, setHandle]
  · simp [live, setHandle, heq]

theorem store_setHandle (s : System) (id : Nat) (new : Option Handle) :
    (s.setHandle id new).store = s.store.setHandle id (position new) := by
  ext1
  · rfl
  · funext other
    simp only [store, Store.setHandle, live_setHandle]
    by_cases heq : other = id
    · subst heq
      rw [Function.update_self, Function.update_self, position]
    · rw [Function.update_of_ne heq, Function.update_of_ne heq]

/-- A call that ends, keeps the system sound and answers as the store does. -/
def Answers (s : System) (junk : Junk) (call : Call) : Prop :=
  ∃ s' answer, s.call junk call = some (s', answer) ∧ s'.Sound ∧ s'.log = s.log ∧
    s.store.Does call answer s'.store

namespace Sound

variable {junk : Junk} {name : Name} {entry : DirectoryEntry} {disk' : Disk}

/-- The file behind a handle. -/
theorem file_of_live (h : s.Sound) (hid : s.live id = some handle) :
    ∃ entry ∈ s.fs.files s.disk, handle.file.hdr = entry.header s.disk ∧ handle.file.hdr.Sound ∧
      entry.key = handle.key ∧ FileSystem.bytesOf s.disk entry = handle.file.hdr.contents s.disk ∧
      s.store.files handle.key = some (handle.file.hdr.contents s.disk) := by
  obtain ⟨entry, hentry, hkey, hhdr⟩ := h.handle hid
  have hbytes : FileSystem.bytesOf s.disk entry = handle.file.hdr.contents s.disk := by
    rw [FileSystem.bytesOf, hhdr]
  refine ⟨entry, hentry, hhdr, hhdr ▸ h.consistent.header entry hentry, hkey, hbytes, ?_⟩
  rw [← hkey, ← hbytes]
  exact h.consistent.lookup_of_mem hentry

theorem setHandle (h : s.Sound) (id : Nat) {new : Option Handle}
    (hnew : ∀ handle, new.filter Handle.live = some handle →
      ∃ entry ∈ s.fs.files s.disk, entry.key = handle.key ∧
        handle.file.hdr = entry.header s.disk) : (s.setHandle id new).Sound where
  consistent := h.consistent
  handle {other handle} hlive := by
    rw [live_setHandle] at hlive
    by_cases heq : other = id
    · subst heq
      rw [Function.update_self] at hlive
      exact hnew handle hlive
    · rw [Function.update_of_ne heq] at hlive
      exact h.handle hlive

/-- The position of a handle moves. -/
theorem moveHandle (h : s.Sound) (hid : s.live id = some handle) (seekPosition : Int) :
    (s.setHandle id (some { handle with file := { handle.file with seekPosition } })).Sound := by
  refine h.setHandle id fun new hnew => ?_
  obtain ⟨hnew, -⟩ := Option.filter_eq_some_iff.mp hnew
  cases hnew
  obtain ⟨entry, hentry, hkey, hhdr⟩ := h.handle hid
  exact ⟨entry, hentry, hkey, hhdr⟩

theorem position_move (hid : s.live id = some handle) (seekPosition : Int) :
    position (some { handle with file := { handle.file with seekPosition } })
      = some (handle.key, seekPosition) := by
  have hlive := (handles_of_live hid).2
  simp [position, hlive]

/-- **A write through a handle**, with the handles as they are. -/
theorem writeDisk (h : s.Sound) (hid : s.live id = some handle) {new : List Byte}
    (hcontents : handle.file.hdr.contents disk' = new)
    (hsame : ∀ sector ∉ handle.file.hdr.sectors, disk' sector = s.disk sector) :
    ({ s with disk := disk' } : System).Sound ∧
      ({ s with disk := disk' } : System).store = s.store.setFile handle.key (some new) := by
  obtain ⟨entry, hentry, hhdr, -, hkey, -, -⟩ := h.file_of_live hid
  rw [hhdr] at hsame hcontents
  obtain ⟨hconsistent, hfiles, hheaders, hbytes⟩ := h.consistent.write hentry hsame
  refine ⟨⟨hconsistent, fun hlive => ?_⟩, ?_⟩
  · obtain ⟨other, hother, hkey', hhdr'⟩ := h.handle hlive
    refine ⟨other, ?_, hkey', ?_⟩
    · exact hfiles ▸ hother
    · exact hhdr'.trans (hheaders other hother).symm
  · ext1
    · have hnew : FileSystem.bytesOf disk' entry = new := by
        rw [FileSystem.bytesOf, hheaders entry hentry, hcontents]
      rw [← hkey, ← hnew]
      exact h.consistent.lookup_write hconsistent hentry hfiles hbytes
    · rfl

/-! ### The calls by name -/

theorem mem_names (s : System) : name.key ∈ s.store.names ↔
    ∃ entry ∈ s.fs.files s.disk, entry.key = name.key :=
  FileSystem.lookup_ne_none

theorem create (h : s.Sound) (junk : Junk) (name : Name) {initialSize : Int32}
    (hsize : initialSize.toInt ≤ MaxFileSize) : s.Answers junk (.create name initialSize) := by
  have hcount : s.store.names.ncard = (s.fs.files s.disk).length := h.consistent.ncard_keys
  have hle := FileSystem.Consistent.length_files_le s.fs s.disk
  by_cases hname : ∃ entry ∈ s.fs.files s.disk, entry.key = name.key
  · obtain ⟨entry, hentry, hkey⟩ := hname
    refine ⟨s, .success false, ?_, h, rfl, ?_⟩
    · rw [call, FileSystem.Create_of_mem h.consistent junk hentry hkey]
      rfl
    · exact .createFails (.inl ((mem_names s).mpr ⟨entry, hentry, hkey⟩))
  · have hnot : name.key ∉ s.store.names := fun hmem => hname ((mem_names s).mp hmem)
    push Not at hname
    -- only a full directory stands in the way: the disk always has room
    rcases Nat.lt_or_eq_of_le hle with hroom | hfull
    · obtain ⟨disk', entry, hcreate, hconsistent, hfiles, hkey, hbytes, hothers⟩ :=
        FileSystem.Create_spec h.consistent junk hname hroom hsize
      have hheader : ∀ other ∈ s.fs.files s.disk, other.header disk' = other.header s.disk :=
        fun other hother => FileSystem.header_congr (hothers other hother _ List.mem_cons_self)
      refine ⟨{ s with disk := disk' }, .success true, ?_, ⟨hconsistent, fun hlive => ?_⟩, rfl, ?_⟩
      · rw [call, hcreate]
        rfl
      · obtain ⟨other, hother, hkey', hhdr⟩ := h.handle hlive
        refine ⟨other, ?_, hkey', ?_⟩
        · exact hfiles.mem_iff.mpr (List.mem_cons_of_mem _ hother)
        · exact hhdr.trans (hheader other hother).symm
      · -- in the store one name is new, and the bytes of the others are as before
        have hstore : ({ s with disk := disk' } : System).store
            = s.store.setFile name.key (some (FileSystem.bytesOf disk' entry)) := by
          ext1
          · rw [← hkey]
            exact h.consistent.lookup_insert hconsistent hfiles fun other hother =>
              FileSystem.bytesOf_congr (h.consistent.header other hother) (hothers other hother)
          · rfl
        rw [hstore]
        refine .create hnot (by omega) ?_
        rw [FileSystem.bytesOf, FileHeader.length_contents, FileHeader.size, hbytes]
    · refine ⟨s, .success false, ?_, h, rfl, ?_⟩
      · rw [call, FileSystem.Create_of_full h.consistent junk hfull]
        rfl
      · exact .createFails (.inr (hcount.trans hfull))

theorem live_retire (s : System) (key : List Byte) (id : Nat) :
    (s.retire key).live id = (s.live id).filter fun handle => handle.key ≠ key := by
  cases hid : s.handles id with
  | none => simp [live, retire, hid]
  | some handle =>
      obtain ⟨file, key', live'⟩ := handle
      cases live' <;> by_cases hkey : key' = key <;> simp [live, retire, hid, hkey, Option.filter]

theorem store_retire (s : System) (key : List Byte) :
    (s.retire key).store = s.store.retire key := by
  ext1
  · rfl
  · funext id
    simp only [store, Store.retire, live_retire]
    cases hid : s.live id with
    | none => rfl
    | some handle => by_cases hne : handle.key = key <;> simp [Option.filter, hne]

theorem remove (h : s.Sound) (junk : Junk) (name : Name) : s.Answers junk (.remove name) := by
  by_cases hname : ∃ entry ∈ s.fs.files s.disk, entry.key = name.key
  · obtain ⟨entry, hentry, hkey⟩ := hname
    obtain ⟨disk', hremove, hconsistent, hfiles, hother⟩ :=
      FileSystem.Remove_spec h.consistent junk hentry hkey
    have hsame : ∀ other ∈ s.fs.files s.disk, ∀ sector ∈ other.owned s.disk,
        disk' sector = s.disk sector := fun other hmem sector hsector =>
      hother sector (h.consistent.not_reserved hmem hsector)
    refine ⟨({ s with disk := disk' } : System).retire name.key, .success true, ?_,
      ⟨hconsistent, fun {id handle} hlive => ?_⟩, rfl, ?_⟩
    · rw [call, hremove]
      rfl
    · -- the handles of the file are no longer live
      rw [live_retire, Option.filter_eq_some_iff] at hlive
      obtain ⟨hlive, hne⟩ := hlive
      obtain ⟨other, hmem, hkey', hhdr⟩ := h.handle hlive
      have hmem' : other ∈ entry :: s.fs.files disk' := hfiles.mem_iff.mp hmem
      have hstays : other ∈ s.fs.files disk' := by
        refine (List.mem_cons.mp hmem').resolve_left ?_
        rintro rfl
        exact absurd (hkey'.symm.trans hkey) (by simpa using hne)
      refine ⟨other, hstays, hkey', hhdr.trans ?_⟩
      exact (FileSystem.header_congr (hsame other hmem _ List.mem_cons_self)).symm
    · have hstore : ({ s with disk := disk' } : System).store = s.store.setFile name.key none := by
        ext1
        · rw [← hkey]
          exact h.consistent.lookup_erase hconsistent hfiles fun other hmem =>
            FileSystem.bytesOf_congr (h.consistent.header other hmem) (hsame other hmem)
        · rfl
      rw [store_retire, hstore]
      exact .remove ((mem_names s).mpr ⟨entry, hentry, hkey⟩)
  · have hnot : name.key ∉ s.store.names := fun hmem => hname ((mem_names s).mp hmem)
    push Not at hname
    refine ⟨s, .success false, ?_, h, rfl, .removeFails hnot⟩
    rw [call, FileSystem.Remove_of_absent h.consistent junk hname]
    rfl

theorem «open» (h : s.Sound) (junk : Junk) (id : Nat) (name : Name) :
    s.Answers junk (.open id name) := by
  by_cases hname : ∃ entry ∈ s.fs.files s.disk, entry.key = name.key
  · obtain ⟨entry, hentry, hkey⟩ := hname
    obtain ⟨new, hnew⟩ : ∃ new, new = Handle.mk { hdr := entry.header s.disk, seekPosition := 0 }
      name.key true := ⟨_, rfl⟩
    refine ⟨s.setHandle id (some new), .success true, ?_, ?_, rfl, ?_⟩
    · rw [call, FileSystem.Open_of_mem h.consistent junk hentry hkey, hnew]
      rfl
    · refine h.setHandle id fun handle hhandle => ?_
      obtain ⟨hsome, -⟩ := Option.filter_eq_some_iff.mp hhandle
      cases hsome
      exact ⟨entry, hentry, by rw [hnew, hkey], by rw [hnew]⟩
    · have hposition : position (some new) = some (name.key, 0) := by
        rw [hnew]
        rfl
      rw [store_setHandle, hposition]
      exact .open ((mem_names s).mpr ⟨entry, hentry, hkey⟩)
  · have hnot : name.key ∉ s.store.names := fun hmem => hname ((mem_names s).mp hmem)
    push Not at hname
    refine ⟨s.setHandle id none, .success false, ?_, h.setHandle id (by simp), rfl, ?_⟩
    · rw [call, FileSystem.Open_of_absent h.consistent junk hname]
      rfl
    · rw [store_setHandle]
      exact .openFails hnot

theorem restart (h : s.Sound) (junk : Junk) : s.Answers junk .restart := by
  refine ⟨{ s with handles := fun _ => none }, .nothing, ?_, ⟨h.consistent, ?_⟩, rfl, .restart⟩
  · rw [call, h.consistent.mount]
    rfl
  · intro id handle hlive
    cases hlive

/-! ### The calls through a handle -/

theorem close (h : s.Sound) (junk : Junk) (id : Nat) : s.Answers junk (.close id) := by
  refine ⟨s.setHandle id none, .nothing, rfl, h.setHandle id (by simp), rfl, ?_⟩
  rw [store_setHandle]
  exact .close

theorem length (h : s.Sound) (junk : Junk) (hid : s.live id = some handle) :
    s.Answers junk (.length id) := by
  obtain ⟨entry, -, -, -, -, -, hfile⟩ := h.file_of_live hid
  refine ⟨s, .count handle.file.Length, ?_, h, rfl, ?_⟩
  · rw [call, (handles_of_live hid).1]
    rfl
  · exact .length (store_handle hid) hfile (by rw [FileHeader.length_contents]; rfl)

theorem seek (h : s.Sound) (junk : Junk) (hid : s.live id = some handle) (position : Int) :
    s.Answers junk (.seek id position) := by
  refine ⟨s.setHandle id (some { handle with file := handle.file.Seek position }), .nothing, ?_,
    h.moveHandle hid position, rfl, ?_⟩
  · rw [call, (handles_of_live hid).1]
    rfl
  · rw [store_setHandle, OpenFile.Seek, position_move hid]
    exact .seek (store_handle hid)

theorem readAt (h : s.Sound) (junk : Junk) (hid : s.live id = some handle) {numBytes position : Int}
    (hrange : Range numBytes position) : s.Answers junk (.readAt id numBytes position) := by
  obtain ⟨entry, -, -, hsound, -, -, hfile⟩ := h.file_of_live hid
  have hread := handle.file.ReadAt_eq hsound s.disk hrange.1 hrange.2
  refine ⟨s, _, ?_, h, rfl, .readAt (store_handle hid) hfile⟩
  rw [call, (handles_of_live hid).1, Option.bind_eq_bind, Option.bind_some, hread]
  rfl

theorem writeAt (h : s.Sound) (junk : Junk) (hid : s.live id = some handle)
    {numBytes position : Int} {source : List Byte} (hrange : Range numBytes position)
    (hsource : numBytes ≤ source.length) :
    s.Answers junk (.writeAt id source numBytes position) := by
  obtain ⟨entry, -, -, hsound, -, -, hfile⟩ := h.file_of_live hid
  obtain ⟨disk', hwrite, hcontents, hother⟩ :=
    handle.file.WriteAt_spec hsound s.disk junk.buffer hrange.1 hrange.2 hsource
  obtain ⟨hsound', hstore⟩ := h.writeDisk hid hcontents hother
  refine ⟨{ s with disk := disk' },
    .count (min numBytes.toNat (handle.file.hdr.size - position.toNat) : Nat), ?_, hsound', rfl, ?_⟩
  · rw [call, (handles_of_live hid).1, Option.bind_eq_bind, Option.bind_some, hwrite]
    rfl
  · rw [hstore]
    have hdoes : Store.Does s.store (.writeAt id source numBytes position) _ _ :=
      .writeAt (store_handle hid) hfile
    rwa [FileHeader.length_contents] at hdoes

theorem read (h : s.Sound) (junk : Junk) (hid : s.live id = some handle) {numBytes : Int}
    (hrange : Range numBytes handle.file.seekPosition) : s.Answers junk (.read id numBytes) := by
  obtain ⟨entry, -, -, hsound, -, -, hfile⟩ := h.file_of_live hid
  have hread := handle.file.ReadAt_eq hsound s.disk hrange.1 hrange.2
  obtain ⟨bytes, hbytes⟩ : ∃ bytes, bytes = ByteFile.readAt (handle.file.hdr.contents s.disk)
      handle.file.seekPosition.toNat numBytes.toNat := ⟨_, rfl⟩
  rw [← hbytes] at hread
  refine ⟨s.setHandle id (some { handle with
      file := { handle.file with seekPosition := handle.file.seekPosition + bytes.length } }),
    .bytes bytes, ?_, h.moveHandle hid _, rfl, ?_⟩
  · rw [call, (handles_of_live hid).1, Option.bind_eq_bind, Option.bind_some, OpenFile.Read, hread]
    rfl
  · rw [store_setHandle, position_move hid, hbytes]
    exact .read (store_handle hid) hfile

theorem write (h : s.Sound) (junk : Junk) (hid : s.live id = some handle) {numBytes : Int}
    {source : List Byte} (hrange : Range numBytes handle.file.seekPosition)
    (hsource : numBytes ≤ source.length) : s.Answers junk (.write id source numBytes) := by
  obtain ⟨entry, -, -, hsound, -, -, hfile⟩ := h.file_of_live hid
  obtain ⟨disk', hwrite, hcontents, hother⟩ :=
    handle.file.WriteAt_spec hsound s.disk junk.buffer hrange.1 hrange.2 hsource
  obtain ⟨hsound', hstore⟩ := h.writeDisk hid hcontents hother
  obtain ⟨count, hcount⟩ : ∃ count : Int, count
      = (min numBytes.toNat (handle.file.hdr.size - handle.file.seekPosition.toNat) : Nat) :=
    ⟨_, rfl⟩
  rw [← hcount] at hwrite
  have hid' : ({ s with disk := disk' } : System).live id = some handle := hid
  refine ⟨({ s with disk := disk' } : System).setHandle id (some { handle with
      file := { handle.file with seekPosition := handle.file.seekPosition + count } }),
    .count count, ?_, hsound'.moveHandle hid' _, rfl, ?_⟩
  · rw [call, (handles_of_live hid).1, Option.bind_eq_bind, Option.bind_some, OpenFile.Write,
      hwrite]
    rfl
  · rw [store_setHandle, position_move hid, hstore]
    have hdoes : Store.Does s.store (.write id source numBytes) _ _ :=
      .write (store_handle hid) hfile
    rwa [FileHeader.length_contents, ← hcount] at hdoes

/-! ### Sessions -/

/-- **Every proper call** is answered as the store does. -/
theorem call (h : s.Sound) (hproper : s.Proper e) : s.Answers e.junk e.call := by
  obtain ⟨call, junk⟩ := e
  cases call with
  | create name initialSize => exact h.create junk name hproper
  | remove name => exact h.remove junk name
  | «open» id name => exact h.open junk id name
  | close id => exact h.close junk id
  | length id =>
      obtain ⟨handle, hid⟩ := Option.isSome_iff_exists.mp hproper
      exact h.length junk hid
  | seek id position =>
      obtain ⟨handle, hid⟩ := Option.isSome_iff_exists.mp hproper
      exact h.seek junk hid position
  | readAt id numBytes position =>
      obtain ⟨handle, hid⟩ := Option.isSome_iff_exists.mp hproper.1
      exact h.readAt junk hid hproper.2
  | writeAt id source numBytes position =>
      obtain ⟨handle, hid⟩ := Option.isSome_iff_exists.mp hproper.1
      exact h.writeAt junk hid hproper.2.1 hproper.2.2
  | read id numBytes =>
      obtain ⟨handle, hid, hrange⟩ := hproper
      exact h.read junk hid hrange
  | write id source numBytes =>
      obtain ⟨handle, hid, hrange, hsource⟩ := hproper
      exact h.write junk hid hrange hsource
  | restart => exact h.restart junk

theorem step (h : s.Sound) (hproper : s.Proper e) :
    ∃ s' answer, System.step s e = some s' ∧ s'.Sound ∧ s'.log = s.log ++ [(e.call, answer)] ∧
      s.store.Does e.call answer s'.store := by
  obtain ⟨s', answer, hcall, hsound, -, hdoes⟩ := h.call hproper
  refine ⟨{ s' with log := s.log ++ [(e.call, answer)] }, answer, ?_,
    ⟨hsound.consistent, hsound.handle⟩, rfl, hdoes⟩
  rw [System.step, hcall]
  rfl

end Sound

theorem start_spec (disk : Disk) (junk : Junk) :
    ∃ s, start disk junk = some s ∧ s.Sound ∧ s.store = .empty ∧ s.log = [] := by
  obtain ⟨disk', fs, hformat, hconsistent, hfiles⟩ := FileSystem.format_spec disk junk
  refine ⟨{ disk := disk', fs, handles := fun _ => none, log := [] }, ?_, ⟨hconsistent, ?_⟩, ?_,
    rfl⟩
  · rw [start, hformat]
    rfl
  · intro id handle hlive
    cases hlive
  · ext1
    · funext key
      exact FileSystem.lookup_eq_none.mpr fun entry hentry => by simp [hfiles] at hentry
    · rfl

theorem log_exec {events : List Event} (hrun : Runs.exec System.step s events = some s') :
    s'.log.map Prod.fst = s.log.map Prod.fst ++ events.map Event.call := by
  induction events generalizing s with
  | nil =>
      cases hrun
      simp
  | cons e rest ih =>
      obtain ⟨t, ht, hrest⟩ := Option.bind_eq_some_iff.mp hrun
      obtain ⟨⟨t', answer⟩, -, rfl⟩ := Option.map_eq_some_iff.mp ht
      rw [ih hrest]
      simp

/-- **Every session of proper calls** gets to its end. -/
theorem session_ends (disk : Disk) (junk : Junk) :
    ∃ s₀, start disk junk = some s₀ ∧
      ∀ events, Runs.EachEvent System.step Proper s₀ events →
        ∃ s, Runs.exec System.step s₀ events = some s ∧ s.Sound ∧
          Store.empty.Run s.log s.store ∧ s.log.map Prod.fst = events.map Event.call := by
  obtain ⟨s₀, hstart, hsound, hstore, hlog⟩ := start_spec disk junk
  refine ⟨s₀, hstart, fun events hproper => ?_⟩
  have hinit : s₀.Sound ∧ Store.empty.Run s₀.log s₀.store := by
    rw [hlog, hstore]
    exact ⟨hsound, .nil⟩
  obtain ⟨s, hexec, hsound', hrun⟩ := Runs.EachEvent.exec_eq_some
    (I := fun s => s.Sound ∧ Store.empty.Run s.log s.store) (C := Proper)
    (fun hI hproper => by
      obtain ⟨s', answer, hstep, hsound', hlog', hdoes⟩ := hI.1.step hproper
      exact ⟨s', hstep, hsound', hlog' ▸ hI.2.snoc hdoes⟩) hinit hproper
  refine ⟨s, hexec, hsound', hrun, ?_⟩
  rw [log_exec hexec, hlog]
  rfl

section Example

def blankSector : Sector := .ofBytes []

def blankJunk : Junk where
  hdr := .ofSector blankSector
  entries _ := .ofTable [] 0
  buffer _ := 0

/-- `a` is written over the border of its sectors, read back and removed, and
`b` is opened after a restart. -/
def shortSession : List Event :=
  [Call.create ⟨[97], by decide⟩ 200, .open 0 ⟨[97], by decide⟩, .writeAt 0 [1, 2, 3] 3 127,
    .seek 0 126, .read 0 5, .create ⟨[98], by decide⟩ 10, .remove ⟨[97], by decide⟩, .restart,
    .open 1 ⟨[98], by decide⟩, .write 1 [4] 1].map fun call => { call, junk := blankJunk }

theorem shortSession_proper {s₀ : System}
    (hstart : start (fun _ => blankSector) blankJunk = some s₀) :
    Runs.EachEvent System.step Proper s₀ shortSession := by
  intro front e s hfront hrun
  refine Runs.forall_snoc_of_getElem? (P := fun front e =>
    ∀ s₀ ∈ start (fun _ => blankSector) blankJunk,
      ∀ s ∈ Runs.exec System.step s₀ front, s.Proper e) ?_ hfront s₀ hstart s hrun
  decide +kernel

end Example

end System

end DistributedAscii.NachOS.Filesys
