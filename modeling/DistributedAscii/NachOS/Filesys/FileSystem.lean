import DistributedAscii.NachOS.Filesys.Directory

/-!
# NachOS — FileSystem

`filesys/filesys.cc`, the implementation over the disk: the map of the free
sectors and the directory are files whose headers are in sectors 0 and 1.
`Create` and `Remove` work on copies of the two, which go back to the disk
at the end if the call succeeds.
-/

namespace DistributedAscii.NachOS.Filesys

def FreeMapSector : Int := 0
def DirectorySector : Int := 1
def BitsInByte : Nat := 8
def FreeMapFileSize : Nat := NumSectors / BitsInByte
def NumDirEntries : Nat := 10
def DirectoryFileSize : Nat := entrySize * NumDirEntries

/-- What `new` finds in memory: in a header, in the entries of a directory
and in a buffer. -/
structure Junk where
  hdr : FileHeader
  entries : Nat → DirectoryEntry
  buffer : Nat → Byte

structure FileSystem where
  freeMapFile : OpenFile
  directoryFile : OpenFile

namespace FileSystem

/-- `FileSystem(false)`. -/
def mount (disk : Disk) : Option FileSystem := do
  let freeMapFile ← OpenFile.new disk FreeMapSector
  let directoryFile ← OpenFile.new disk DirectorySector
  some { freeMapFile, directoryFile }

/-- `FileSystem(true)`. -/
def format (disk : Disk) (junk : Junk) : Option (Disk × FileSystem) := do
  let freeMap := BitMap.new NumSectors
  let directory := Directory.new NumDirEntries junk.entries
  let freeMap ← freeMap.Mark FreeMapSector
  let freeMap ← freeMap.Mark DirectorySector
  let (mapHdr, freeMap, allocated) ← junk.hdr.Allocate freeMap (.ofNat FreeMapFileSize)
  if ¬allocated then none
  let (dirHdr, freeMap, allocated) ← junk.hdr.Allocate freeMap (.ofNat DirectoryFileSize)
  if ¬allocated then none
  let disk ← mapHdr.WriteBack disk FreeMapSector
  let disk ← dirHdr.WriteBack disk DirectorySector
  let freeMapFile ← OpenFile.new disk FreeMapSector
  let directoryFile ← OpenFile.new disk DirectorySector
  let disk ← writeBackMap freeMap freeMapFile disk junk.buffer
  let disk ← directory.WriteBack directoryFile disk junk.buffer
  some (disk, { freeMapFile, directoryFile })

def Create (fs : FileSystem) (disk : Disk) (junk : Junk) (name : Name) (initialSize : Int32) :
    Option (Disk × Bool) := do
  let directory ← (Directory.new NumDirEntries junk.entries).FetchFrom fs.directoryFile disk
  if directory.Find name ≠ -1 then some (disk, false)
  else
    let freeMap ← fetchMap (.new NumSectors) fs.freeMapFile disk
    let (sector, freeMap) := freeMap.Find
    if sector = -1 then some (disk, false)
    else
      let (directory, added) := directory.Add name (.ofInt sector)
      if ¬added then some (disk, false)
      else
        let (hdr, freeMap, allocated) ← junk.hdr.Allocate freeMap initialSize
        if ¬allocated then some (disk, false)
        else
          let disk ← hdr.WriteBack disk sector
          let disk ← directory.WriteBack fs.directoryFile disk junk.buffer
          let disk ← writeBackMap freeMap fs.freeMapFile disk junk.buffer
          some (disk, true)

/-- None inside, where the source has NULL. -/
def Open (fs : FileSystem) (disk : Disk) (junk : Junk) (name : Name) :
    Option (Option OpenFile) := do
  let directory ← (Directory.new NumDirEntries junk.entries).FetchFrom fs.directoryFile disk
  let sector := directory.Find name
  if 0 ≤ sector then (OpenFile.new disk sector).map some else some none

def Remove (fs : FileSystem) (disk : Disk) (junk : Junk) (name : Name) :
    Option (Disk × Bool) := do
  let directory ← (Directory.new NumDirEntries junk.entries).FetchFrom fs.directoryFile disk
  let sector := directory.Find name
  if sector = -1 then some (disk, false)
  else
    let fileHdr ← FileHeader.FetchFrom disk sector
    let freeMap ← fetchMap (.new NumSectors) fs.freeMapFile disk
    let freeMap ← fileHdr.Deallocate freeMap
    let freeMap ← freeMap.Clear sector
    let (directory, _) := directory.Remove name
    let disk ← writeBackMap freeMap fs.freeMapFile disk junk.buffer
    let disk ← directory.WriteBack fs.directoryFile disk junk.buffer
    some (disk, true)

end FileSystem

end DistributedAscii.NachOS.Filesys
