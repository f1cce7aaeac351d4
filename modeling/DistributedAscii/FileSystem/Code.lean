import DistributedAscii.Lib.ByteFile
import DistributedAscii.Text

/-!
# FileSystem — the code

`FileSystem.c` and `Structures.c` over the bytes of `disk.dat`. A `FILE *`
is a position. What is written through it waits in its buffer until the next
`fseek` or `fclose` of the same handle, which matters where another handle
works in between: `allocateContent` has the 255 bytes of a chunk in its
buffer while `checkBlockAvaible` reads and writes the disk, and the chunk
reaches the file together with the link byte behind it.

The disk is a directory block of 15 slots (16 bytes of name, one byte for
the first block) and the free counter in byte 255, then the data blocks of
255 bytes and a link byte. `SIZEBLOCK` is 256, `COUNTBLOCKS` and
`DATAPACKET` are 255. `EXIT_FAILURE` is 1, which matters: it is also what
`checkBlockAvaible` returns as a block number.

A loop of the source recurses on the list of its index values or on a
counter of the iterations it can still make; `fseek` to a position that is
not negative never fails.
-/

namespace DistributedAscii.FileSystem

open Lib.ByteFile

/-- The bytes of `disk.dat`. -/
abbrev Disk := Bytes

/-- What `fopen(path, "rb")` finds under a path of the host. -/
abbrev Host := CString → Option Bytes

def exitSuccess : UInt8 := 0

def exitFailure : UInt8 := 1

/-- `fread` into a buffer: what the file does not provide stays. -/
def fread (disk : Disk) (pos : Nat) (buffer : Bytes) : Bytes :=
  readAt disk pos buffer.length ++ buffer.drop (readAt disk pos buffer.length).length

/-- `fwrite`; the gap behind the end of the file reads as zeros. -/
def fwrite (disk : Disk) (pos : Nat) (data : Bytes) : Disk :=
  writeAt 0 disk pos data

/-- `checkMounted`: the disk file can be opened. -/
def checkMounted (store : Option Disk) : Bool :=
  store.isSome

/-- `mountSystem`: an existing disk is kept, else a directory block with no
entry and the free counter at 1 is written. -/
def mountSystem : Option Disk → Disk
  | some disk => disk
  | none => List.replicate 255 0 ++ [1]

/-! ## Looking a name up -/

/-- The locals of the search loop of `existFile` and `existASCII`. -/
structure Lookup where
  nameFile : Bytes
  i : Nat
  pos : Nat
deriving DecidableEq

/-- `while (strcmp(name, NameFile) && i < SIZEBLOCK)`. The buffer starts
zeroed and is compared before anything is read into it. A slot whose 16
bytes are all used has no terminator of its own; the allocator leaves zeros
behind the buffer, so it reads as its 16 characters. -/
def lookupLoop (disk : Disk) (name : CString) : Nat → Lookup → Lookup
  | 0, s => s
  | fuel + 1, s =>
      if untilNul s.nameFile = name.bytes then s
      else if s.i < 256 then
        lookupLoop disk name fuel
          { nameFile := fread disk s.pos s.nameFile
            i := s.i + 17
            pos := s.pos + (readAt disk s.pos s.nameFile.length).length + 1 }
      else s

def lookup (disk : Disk) (name : CString) : Lookup :=
  lookupLoop disk name 16 { nameFile := List.replicate 16 0, i := 0, pos := 0 }

/-- `existFile`: the first block of the named file, `none` for
`EXIT_FAILURE`. At position 0 the `fseek(disk, -1, SEEK_CUR)` fails and the
position stays 0, as the subtraction here does. -/
def existFile (disk : Disk) (name : CString) : Option UInt8 :=
  let s := lookup disk name
  if 255 ≤ s.i then none else some (disk.getD (s.pos - 1) 0)

def existASCII (disk : Disk) (name : CString) : UInt8 :=
  if 255 ≤ (lookup disk name).i then exitFailure else exitSuccess

/-! ## Allocation -/

/-- The `for` of `checkBlockAvaible`: the first of the blocks whose link
byte is 0, as long as the link bytes can be read. -/
def scanFree (disk : Disk) : List Nat → Option Nat
  | [] => none
  | i :: rest =>
      match disk[i * 256 + 255]? with
      | none => none
      | some block => if block = 0 then some i else scanFree disk rest

/-- `checkBlockAvaible`: a block with link byte 0 is claimed by writing 255
into it, else the free counter is taken and advanced, else the answer is
`EXIT_FAILURE`. -/
def checkBlockAvaible (disk : Disk) : UInt8 × Disk :=
  match scanFree disk (List.range' 1 254) with
  | some i => (UInt8.ofNat i, fwrite disk (i * 256 + 255) [255])
  | none =>
      let block := disk.getD 255 0
      if block ≠ 255 then (block, fwrite disk 255 [1 + block]) else (exitFailure, disk)

/-- The locals of the slot loop of `allocateInDirectory`. -/
structure SlotScan where
  firstBlock : UInt8
  pos : Nat
deriving DecidableEq

/-- `for (i = 0; i < SIZEBLOCK && d->firstBlock != 0; i += 17)` over the
values `i` takes. At the end of the file the `fread` keeps both locals. -/
def slotLoop (disk : Disk) : List Nat → SlotScan → SlotScan
  | [], s => s
  | i :: rest, s =>
      if s.firstBlock = 0 then s
      else
        match disk[i + 16]? with
        | some b => slotLoop disk rest { firstBlock := b, pos := i + 17 }
        | none => slotLoop disk rest { firstBlock := s.firstBlock, pos := i + 16 }

/-- The values of `i` below `SIZEBLOCK`: the 15 slots and 255. -/
def slotOffsets : List Nat :=
  (List.range 16).map (17 * ·)

/-- `allocateInDirectory`: the first block given to the file, and the disk
with its slot filled. None of its `fseek`s fails, so neither does it. -/
def allocateInDirectory (name : CString) (disk : Disk) : UInt8 × Disk :=
  let s := slotLoop disk slotOffsets { firstBlock := 1, pos := 0 }
  let r := checkBlockAvaible disk
  let disk := fwrite r.2 (s.pos - 1) [r.1]
  (r.1, fwrite disk (s.pos - 17) (padTo 16 name.bytes))

/-! ## Content -/

/-- `extractContent`: the chunk number `readNumber` of the host file, zero
padded, with `EXIT_FAILURE` if the file cannot be opened and 2 if it ends
in this chunk. -/
def extractContent (host : Host) (data : Bytes) (pathFile : CString) (readNumber : Nat) :
    UInt8 × Bytes :=
  match host pathFile with
  | none => (exitFailure, data)
  | some content =>
      let read := readAt content (readNumber * 255) 255
      (if read.length < 255 then 2 else exitSuccess, padTo 255 read)

/-- The body that `allocateContent` runs for the first block and then in
`while (index < COUNTBLOCKS)` for every other one: the chunk, and behind it
either the mark of the last block or the number of a newly allocated one.
The allocator runs between the two `fwrite`s and works on the disk without
the chunk. -/
def contentLoop (host : Host) (path : CString) :
    Nat → Nat → UInt8 → Disk → UInt8 × Disk
  | 0, _, _, disk => (exitFailure, disk)
  | fuel + 1, index, block, disk =>
      let chunk := extractContent host (List.replicate 255 0) path index
      if chunk.1 = 2 then
        (exitSuccess, fwrite disk (block.toNat * 256) (chunk.2 ++ [255]))
      else
        let r := checkBlockAvaible disk
        contentLoop host path fuel (index + 1) r.1
          (fwrite r.2 (block.toNat * 256) (chunk.2 ++ [r.1]))

/-- `allocateContent`; the blocks it can write are the first one and those
of `index = 1, …, COUNTBLOCKS - 1`. -/
def allocateContent (host : Host) (firstBlock : UInt8) (path : CString) (disk : Disk) :
    UInt8 × Disk :=
  if (extractContent host (List.replicate 255 0) path 0).1 = exitFailure then
    (exitFailure, disk)
  else contentLoop host path 255 0 firstBlock disk

/-! ## Entry points -/

/-- `writeFile` on a mounted disk. -/
def writeMounted (host : Host) (name path : CString) (disk : Disk) : UInt8 × Disk :=
  if 16 < name.length then (exitFailure, disk)
  else if (existFile disk name).isSome then (exitFailure, disk)
  else
    let r := allocateInDirectory name disk
    allocateContent host r.1 path r.2

/-- `writeFile`. -/
def writeFile (host : Host) (name path : CString) (store : Option Disk) :
    UInt8 × Option Disk :=
  match store with
  | none => (exitFailure, none)
  | some disk =>
      let r := writeMounted host name path disk
      (r.1, some r.2)

/-- The block buffer of `extractBlock`: 256 bytes, zero before the read. -/
def readBlock (disk : Disk) (number : Nat) : Bytes :=
  fread disk (number * 256) (List.replicate 256 0)

/-- `extractBlock`; `none` is the null pointer of an unknown name. -/
def extractBlock (disk : Disk) (name : CString) (number : Nat) : Option Bytes :=
  if number = 0 then
    (existFile disk name).map fun firstBlock => readBlock disk firstBlock.toNat
  else some (readBlock disk number)

/-- The loop of `getSystemInfo`; `pos` is where the next slot is read. -/
def listLoop (disk : Disk) : Nat → Nat → Nat → Bytes → Bytes
  | 0, _, _, info => info
  | fuel + 1, i, pos, info =>
      if i < 256 then
        let name := fread disk pos (List.replicate 16 0)
        if untilNul name = [] then info
        else
          listLoop disk fuel (i + 17) (pos + (readAt disk pos 16).length + 1)
            (info ++ untilNul name ++ bytes "\n")
      else info

def getSystemInfo (disk : Disk) : Bytes :=
  listLoop disk 16 0 0 []

/-! ## Sequences of calls -/

/-- The arguments of one `writeFile`. -/
structure WriteCall where
  name : CString
  path : CString

/-- The disk after a sequence of calls, from the one `mountSystem` makes. -/
def runWrites (host : Host) (calls : List WriteCall) : Disk :=
  calls.foldl (fun disk c => (writeMounted host c.name c.path disk).2) (mountSystem none)

theorem runWrites_append (host : Host) (calls : List WriteCall) (c : WriteCall) :
    runWrites host (calls ++ [c])
      = (writeMounted host c.name c.path (runWrites host calls)).2 := by
  rw [runWrites, List.foldl_append]
  rfl

end DistributedAscii.FileSystem
