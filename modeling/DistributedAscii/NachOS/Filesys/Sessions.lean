import DistributedAscii.Lib.Runs
import DistributedAscii.NachOS.Filesys.Calls

/-!
# NachOS — sessions of the file system

A program formats the disk, creates, opens and removes files, reads and
writes them through the handles that it has open, and restarts the machine
(`FileSystem(false)` on the same disk).

What all of this is for is the `Store`: a file is a list of bytes under a
key, and a handle is a key and a position. Sectors, headers, the map and the
directory are not in it.
-/

namespace DistributedAscii.NachOS.Filesys

open Lib Lib.Blocks

/-! ## The calls -/

inductive Call where
  | create (name : Name) (initialSize : Int32)
  | remove (name : Name)
  | open (id : Nat) (name : Name)
  | close (id : Nat)
  | length (id : Nat)
  | seek (id : Nat) (position : Int)
  | readAt (id : Nat) (numBytes position : Int)
  | writeAt (id : Nat) (source : List Byte) (numBytes position : Int)
  | read (id : Nat) (numBytes : Int)
  | write (id : Nat) (source : List Byte) (numBytes : Int)
  | restart

inductive Answer where
  | nothing
  | success (b : Bool)
  | bytes (bytes : List Byte)
  | count (n : Int)
  deriving DecidableEq

/-- A call, and what it finds in memory. -/
structure Event where
  call : Call
  junk : Junk

/-- An open file. That it is the file of a key, and that the file has not
been removed since, is for the proofs only. -/
structure Handle where
  file : OpenFile
  key : List Byte
  live : Bool

/-- `log` holds the calls and their answers. -/
structure System where
  disk : Disk
  fs : FileSystem
  handles : Nat → Option Handle
  log : List (Call × Answer)

namespace System

def start (disk : Disk) (junk : Junk) : Option System :=
  (FileSystem.format disk junk).map fun (disk, fs) =>
    { disk, fs, handles := fun _ => none, log := [] }

def setHandle (s : System) (id : Nat) (handle : Option Handle) : System :=
  { s with handles := Function.update s.handles id handle }

/-- The handles of a removed file are no longer its own. -/
def retire (s : System) (key : List Byte) : System :=
  { s with handles := fun id => (s.handles id).map fun handle =>
      { handle with live := handle.live && handle.key ≠ key } }

/-- None where an assertion fails, or where the handle is NULL. -/
def call (s : System) (junk : Junk) : Call → Option (System × Answer)
  | .create name initialSize =>
      (s.fs.Create s.disk junk name initialSize).map fun (disk, result) =>
        ({ s with disk }, .success result)
  | .remove name =>
      (s.fs.Remove s.disk junk name).map fun (disk, result) =>
        (if result then { s with disk }.retire name.key else { s with disk }, .success result)
  | .open id name =>
      (s.fs.Open s.disk junk name).map fun file =>
        (s.setHandle id (file.map fun file => { file, key := name.key, live := true }),
          .success file.isSome)
  | .close id => some (s.setHandle id none, .nothing)
  | .length id => do
      let handle ← s.handles id
      some (s, .count handle.file.Length)
  | .seek id position => do
      let handle ← s.handles id
      some (s.setHandle id (some { handle with file := handle.file.Seek position }), .nothing)
  | .readAt id numBytes position => do
      let handle ← s.handles id
      let bytes ← handle.file.ReadAt s.disk numBytes position
      some (s, .bytes bytes)
  | .writeAt id source numBytes position => do
      let handle ← s.handles id
      let (disk, n) ← handle.file.WriteAt s.disk junk.buffer source numBytes position
      some ({ s with disk }, .count n)
  | .read id numBytes => do
      let handle ← s.handles id
      let (file, bytes) ← handle.file.Read s.disk numBytes
      some (s.setHandle id (some { handle with file }), .bytes bytes)
  | .write id source numBytes => do
      let handle ← s.handles id
      let (file, disk, n) ← handle.file.Write s.disk junk.buffer source numBytes
      some ({ s with disk }.setHandle id (some { handle with file }), .count n)
  | .restart =>
      (FileSystem.mount s.disk).map fun fs =>
        ({ s with fs, handles := fun _ => none }, .nothing)

def step (s : System) (e : Event) : Option System :=
  (s.call e.junk e.call).map fun (s', answer) => { s' with log := s.log ++ [(e.call, answer)] }

/-- The handle of a file that has not been removed. -/
def live (s : System) (id : Nat) : Option Handle :=
  (s.handles id).filter Handle.live

/-- What a range has to keep to: the sum of its two ends is an `int`. -/
def Range (numBytes position : Int) : Prop :=
  0 ≤ position ∧ position + numBytes < 2 ^ 31

instance (numBytes position : Int) : Decidable (Range numBytes position) :=
  inferInstanceAs (Decidable (_ ∧ _))

/-- What the calls ask of a program: no file is larger than a header can
say, no handle is used that is not open or whose file has been removed. -/
def Proper (s : System) (e : Event) : Prop :=
  match e.call with
  | .create _ initialSize => initialSize.toInt ≤ MaxFileSize
  | .remove _ | .open _ _ | .close _ | .restart => True
  | .length id | .seek id _ => (s.live id).isSome
  | .readAt id numBytes position => (s.live id).isSome ∧ Range numBytes position
  | .writeAt id source numBytes position =>
      (s.live id).isSome ∧ Range numBytes position ∧ numBytes ≤ source.length
  | .read id numBytes => ∃ handle, s.live id = some handle ∧ Range numBytes handle.file.seekPosition
  | .write id source numBytes => ∃ handle, s.live id = some handle ∧
      Range numBytes handle.file.seekPosition ∧ numBytes ≤ source.length

instance (s : System) : (e : Event) → Decidable (s.Proper e)
  | ⟨.create _ initialSize, _⟩ => inferInstanceAs (Decidable (initialSize.toInt ≤ MaxFileSize))
  | ⟨.remove _, _⟩ | ⟨.open _ _, _⟩ | ⟨.close _, _⟩ | ⟨.restart, _⟩ => isTrue trivial
  | ⟨.length id, _⟩ | ⟨.seek id _, _⟩ => inferInstanceAs (Decidable ((s.live id).isSome))
  | ⟨.readAt id numBytes position, _⟩ =>
      inferInstanceAs (Decidable ((s.live id).isSome ∧ Range numBytes position))
  | ⟨.writeAt id source numBytes position, _⟩ =>
      inferInstanceAs (Decidable ((s.live id).isSome ∧ Range numBytes position ∧
        numBytes ≤ source.length))
  | ⟨.read id numBytes, _⟩ =>
      inferInstanceAs (Decidable (∃ handle ∈ s.live id, Range numBytes handle.file.seekPosition))
  | ⟨.write id source numBytes, _⟩ =>
      inferInstanceAs (Decidable (∃ handle ∈ s.live id,
        Range numBytes handle.file.seekPosition ∧ numBytes ≤ source.length))

end System

/-! ## What they are for -/

/-- Files by their keys, and handles by their numbers: a key and a position. -/
@[ext] structure Store where
  files : List Byte → Option (List Byte)
  handles : Nat → Option (List Byte × Int)

namespace Store

def empty : Store where
  files := fun _ => none
  handles := fun _ => none

def names (store : Store) : Set (List Byte) :=
  {key | store.files key ≠ none}

def setFile (store : Store) (key : List Byte) (file : Option (List Byte)) : Store :=
  { store with files := Function.update store.files key file }

def setHandle (store : Store) (id : Nat) (handle : Option (List Byte × Int)) : Store :=
  { store with handles := Function.update store.handles id handle }

def retire (store : Store) (key : List Byte) : Store :=
  { store with handles := fun id => (store.handles id).filter fun handle => handle.1 ≠ key }

/-- What a call may answer, and the store behind it. The bytes of a new file
are not determined. -/
inductive Does (store : Store) : Call → Answer → Store → Prop where
  | create {name initialSize bytes} (hnew : name.key ∉ store.names)
      (hroom : store.names.ncard < NumDirEntries)
      (hbytes : bytes.length = initialSize.toInt.toNat) :
      Does store (.create name initialSize) (.success true) (store.setFile name.key (some bytes))
  | createFails {name initialSize}
      (hfails : name.key ∈ store.names ∨ store.names.ncard = NumDirEntries) :
      Does store (.create name initialSize) (.success false) store
  | remove {name} (hname : name.key ∈ store.names) :
      Does store (.remove name) (.success true) ((store.setFile name.key none).retire name.key)
  | removeFails {name} (hname : name.key ∉ store.names) :
      Does store (.remove name) (.success false) store
  | open {id name} (hname : name.key ∈ store.names) :
      Does store (.open id name) (.success true) (store.setHandle id (some (name.key, 0)))
  | openFails {id name} (hname : name.key ∉ store.names) :
      Does store (.open id name) (.success false) (store.setHandle id none)
  | close {id} : Does store (.close id) .nothing (store.setHandle id none)
  | length {id key pos bytes n} (hid : store.handles id = some (key, pos))
      (hfile : store.files key = some bytes) (hn : n.toNat = bytes.length) :
      Does store (.length id) (.count n) store
  | seek {id key pos position} (hid : store.handles id = some (key, pos)) :
      Does store (.seek id position) .nothing (store.setHandle id (some (key, position)))
  | readAt {id key pos bytes numBytes position} (hid : store.handles id = some (key, pos))
      (hfile : store.files key = some bytes) :
      Does store (.readAt id numBytes position)
        (.bytes (ByteFile.readAt bytes position.toNat numBytes.toNat)) store
  | writeAt {id key pos bytes source numBytes position} (hid : store.handles id = some (key, pos))
      (hfile : store.files key = some bytes) :
      Does store (.writeAt id source numBytes position)
        (.count (min numBytes.toNat (bytes.length - position.toNat) : Nat))
        (store.setFile key (some (splice bytes position.toNat (source.take numBytes.toNat))))
  | read {id key pos bytes numBytes} (hid : store.handles id = some (key, pos))
      (hfile : store.files key = some bytes) :
      Does store (.read id numBytes) (.bytes (ByteFile.readAt bytes pos.toNat numBytes.toNat))
        (store.setHandle id
          (some (key, pos + (ByteFile.readAt bytes pos.toNat numBytes.toNat).length)))
  | write {id key pos bytes source numBytes} (hid : store.handles id = some (key, pos))
      (hfile : store.files key = some bytes) :
      Does store (.write id source numBytes)
        (.count (min numBytes.toNat (bytes.length - pos.toNat) : Nat))
        ((store.setFile key (some (splice bytes pos.toNat (source.take numBytes.toNat)))).setHandle
          id (some (key, pos + (min numBytes.toNat (bytes.length - pos.toNat) : Nat))))
  | restart : Does store .restart .nothing { store with handles := fun _ => none }

/-- The calls of a session, with their answers. -/
inductive Run (store : Store) : List (Call × Answer) → Store → Prop where
  | nil : Run store [] store
  | snoc {log store' call answer store''} (hrun : Run store log store')
      (hdoes : Does store' call answer store'') : Run store (log ++ [(call, answer)]) store''

end Store

end DistributedAscii.NachOS.Filesys
