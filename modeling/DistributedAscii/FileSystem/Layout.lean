import DistributedAscii.FileSystem.Code

/-!
# FileSystem — the disk as a structure

A `Layout` is a disk read with the directory and the blocks in view: the
filled slots in order, the free counter, the data blocks. Its fields carry
what the code never breaks (a slot has a name of 1 to 16 characters and a
block number that exists, the counter is not 0, there are at most 254 data
blocks), so a block number is a `BlockNo` wherever the code can only have
one.

`toBytes` is the disk a layout stands for. The operations below are the
code's, one level up; `Simulation` proves that the code on `L.toBytes` is
the operation on `L`, whatever the layout (chains may be shared, cyclic or
unfinished).
-/

namespace DistributedAscii.FileSystem

open Lib.ByteFile

/-- A block number the allocator can return. -/
structure BlockNo where
  val : UInt8
  pos : 0 < val.toNat
  le : val.toNat ≤ 254
deriving DecidableEq

/-- A filled slot of the directory. -/
structure Entry where
  name : CString
  firstBlock : BlockNo
  name_pos : 0 < name.length
  name_le : name.length ≤ 16
deriving DecidableEq

/-- A data block. -/
structure Block where
  data : Bytes
  link : UInt8
  size_data : data.length = 255
deriving DecidableEq

structure Layout where
  entries : List Entry
  counter : UInt8
  blocks : List Block
  entries_le : entries.length ≤ 15
  counter_ne : counter ≠ 0
  blocks_le : blocks.length ≤ 254
deriving DecidableEq

namespace BlockNo

/-- The position of a block among the data blocks. -/
def index (b : BlockNo) : Nat :=
  b.val.toNat - 1

theorem index_lt (b : BlockNo) : b.index < 254 := by
  have h1 := b.pos
  have h2 := b.le
  rw [index]
  omega

theorem toNat_eq (b : BlockNo) : b.val.toNat = b.index + 1 := by
  have h := b.pos
  rw [index]
  omega

/-- The block at a position. -/
def ofIndex (i : Nat) (h : i < 254) : BlockNo where
  val := UInt8.ofNat (i + 1)
  pos := by rw [UInt8.toNat_ofNat']; omega
  le := by rw [UInt8.toNat_ofNat']; omega

theorem toNat_ofIndex {i : Nat} (h : i < 254) : (ofIndex i h).val.toNat = i + 1 := by
  simp only [ofIndex, UInt8.toNat_ofNat']
  omega

/-- A counter that is neither 0 nor exhausted. -/
def ofCounter (c : UInt8) (h0 : c ≠ 0) (h255 : c ≠ 255) : BlockNo where
  val := c
  pos := by
    have h : c.toNat ≠ 0 := fun h => h0 (UInt8.toNat_inj.mp (by simpa using h))
    omega
  le := by
    have h : c.toNat ≠ 255 := fun h => h255 (UInt8.toNat_inj.mp (by simpa using h))
    have := c.toNat_lt
    omega

/-- What `EXIT_FAILURE` is as a block number. -/
def one : BlockNo where
  val := exitFailure
  pos := by decide
  le := by decide

end BlockNo

namespace Entry

def toBytes (e : Entry) : Bytes :=
  padTo 16 e.name.bytes ++ [e.firstBlock.val]

theorem length_toBytes (e : Entry) : e.toBytes.length = 17 := by
  have h : e.name.bytes.length ≤ 16 := e.name_le
  rw [toBytes, List.length_append, length_padTo h, List.length_singleton]

end Entry

namespace Block

def toBytes (b : Block) : Bytes :=
  b.data ++ [b.link]

theorem length_toBytes (b : Block) : b.toBytes.length = 256 := by
  rw [toBytes, List.length_append, b.size_data, List.length_singleton]

@[simp] theorem take_toBytes (b : Block) : b.toBytes.take 255 = b.data := by
  have h := b.size_data
  rw [toBytes, List.take_append_of_le_length (by omega), List.take_of_length_le (by omega)]

@[simp] theorem getD_toBytes (b : Block) : b.toBytes.getD 255 0 = b.link := by
  have h := b.size_data
  rw [List.getD_eq_getElem?_getD, toBytes, List.getElem?_append_right (by omega), h]
  rfl

/-- A hole of the disk file. -/
def zero : Block where
  data := List.replicate 255 0
  link := 0
  size_data := List.length_replicate ..

theorem toBytes_zero : zero.toBytes = List.replicate 256 0 := by
  rw [toBytes, zero, ← List.replicate_succ']

def withData (data : Bytes) (h : data.length = 255) (b : Block) : Block :=
  { b with data := data, size_data := h }

def withLink (link : UInt8) (b : Block) : Block :=
  { b with link := link }

end Block

namespace Layout

variable (L : Layout)

/-- The filled slots. -/
def slots : Bytes :=
  L.entries.flatMap Entry.toBytes

/-- Block 0. -/
def directory : Bytes :=
  L.slots ++ List.replicate (255 - 17 * L.entries.length) 0 ++ [L.counter]

def toBytes : Disk :=
  L.directory ++ L.blocks.flatMap Block.toBytes

theorem one_le_counter : 1 ≤ L.counter.toNat := by
  by_contra h
  exact L.counter_ne (UInt8.toNat_inj.mp (by simpa using h))

theorem length_slots : L.slots.length = 17 * L.entries.length :=
  length_records Entry.length_toBytes L.entries

theorem length_directory : L.directory.length = 256 := by
  have h := L.entries_le
  simp only [directory, List.length_append, length_slots, List.length_replicate,
    List.length_singleton]
  omega

theorem length_toBytes : L.toBytes.length = 256 + 256 * L.blocks.length := by
  rw [toBytes, List.length_append, length_directory,
    length_records Block.length_toBytes]

/-- The disk of `mountSystem`. -/
def fresh : Layout where
  entries := []
  counter := 1
  blocks := []
  entries_le := by decide
  counter_ne := by decide
  blocks_le := by decide

theorem toBytes_fresh : fresh.toBytes = mountSystem none := by
  simp only [toBytes, directory, slots, fresh, mountSystem, List.flatMap_nil,
    List.nil_append, List.append_nil, List.length_nil, Nat.mul_zero, Nat.sub_zero]

/-- The link byte of block `b`; 0 where the file has none. -/
def link (b : Nat) : UInt8 :=
  if b = 0 then L.counter else (L.blocks[b - 1]?.map Block.link).getD 0

/-- The slot the code finds for a name: the loop gives up behind slot 13. -/
def find (name : CString) : Option Entry :=
  (L.entries.take 14).find? (fun e => e.name = name)

/-! ## Allocation -/

/-- The first block that is free by its link byte. -/
def freeIndex : Option Nat :=
  L.blocks.findIdx? (fun b => b.link = 0)

theorem freeIndex_lt {L : Layout} {i : Nat} (h : L.freeIndex = some i) : i < 254 := by
  have hi : i < L.blocks.length := by
    rw [freeIndex, List.findIdx?_eq_some_iff_getElem] at h
    exact h.1
  have := L.blocks_le
  omega

/-- Block `i + 1` is claimed. -/
def claim (i : Nat) : Layout :=
  { L with
    blocks := L.blocks.modify i (Block.withLink 255)
    blocks_le := by rw [List.length_modify]; exact L.blocks_le }

theorem toNat_one_add {c : UInt8} (h : c ≠ 255) : (1 + c).toNat = c.toNat + 1 := by
  have h255 : c.toNat ≠ 255 := fun h' => h (UInt8.toNat_inj.mp (by simpa using h'))
  have hlt := c.toNat_lt
  rw [UInt8.toNat_add]
  simp only [UInt8.reduceToNat]
  omega

theorem one_add_ne_zero {c : UInt8} (h : c ≠ 255) : 1 + c ≠ 0 := by
  intro h0
  have h1 := toNat_one_add h
  rw [h0] at h1
  simp at h1

/-- The counter is taken. -/
def bump (h : L.counter ≠ 255) : Layout :=
  { L with counter := 1 + L.counter, counter_ne := one_add_ne_zero h }

/-- `checkBlockAvaible`. -/
def alloc : BlockNo × Layout :=
  match hf : L.freeIndex with
  | some i => (.ofIndex i (freeIndex_lt hf), L.claim i)
  | none =>
      if h : L.counter ≠ 255 then (.ofCounter L.counter L.counter_ne h, L.bump h)
      else (.one, L)

/-! ## Directory -/

/-- A slot behind the filled ones. -/
def addEntry (e : Entry) (h : L.entries.length < 15) : Layout :=
  { L with
    entries := L.entries ++ [e]
    entries_le := by rw [List.length_append, List.length_singleton]; omega }

/-! ## Content -/

/-- The disk grows to the front of block `b`. -/
def growTo (b : BlockNo) : Layout :=
  { L with
    blocks := L.blocks ++ List.replicate (b.index - L.blocks.length) Block.zero
    blocks_le := by
      have h1 := L.blocks_le
      have h2 := b.index_lt
      rw [List.length_append, List.length_replicate]
      omega }

theorem length_blocks_growTo {b : BlockNo} (h : L.blocks.length ≤ b.index) :
    (L.growTo b).blocks.length = b.index := by
  rw [growTo, List.length_append, List.length_replicate]
  omega

/-- Block `b` is written, data and link byte: in place, or behind the end of
the file, where the gap in front of it becomes zeros. -/
def writeBlock (b : BlockNo) (data : Bytes) (h : data.length = 255) (link : UInt8) :
    Layout :=
  if hlt : b.index < L.blocks.length then
    { L with
      blocks := L.blocks.set b.index ⟨data, link, h⟩
      blocks_le := by rw [List.length_set]; exact L.blocks_le }
  else
    { L with
      blocks := (L.growTo b).blocks ++ [⟨data, link, h⟩]
      blocks_le := by
        have hindex := b.index_lt
        rw [List.length_append, length_blocks_growTo L (Nat.le_of_not_lt hlt),
          List.length_singleton]
        omega }

/-! What an operation leaves alone, and the blocks it leaves. -/

@[simp] theorem bump_entries (h : L.counter ≠ 255) : (L.bump h).entries = L.entries := rfl

@[simp] theorem bump_counter (h : L.counter ≠ 255) : (L.bump h).counter = 1 + L.counter := rfl

@[simp] theorem bump_blocks (h : L.counter ≠ 255) : (L.bump h).blocks = L.blocks := rfl

@[simp] theorem addEntry_blocks (e : Entry) (h : L.entries.length < 15) :
    (L.addEntry e h).blocks = L.blocks := rfl

@[simp] theorem addEntry_counter (e : Entry) (h : L.entries.length < 15) :
    (L.addEntry e h).counter = L.counter := rfl

@[simp] theorem writeBlock_entries (b : BlockNo) {data : Bytes} (h : data.length = 255)
    (link : UInt8) : (L.writeBlock b data h link).entries = L.entries := by
  rw [writeBlock]
  split <;> rfl

@[simp] theorem writeBlock_counter (b : BlockNo) {data : Bytes} (h : data.length = 255)
    (link : UInt8) : (L.writeBlock b data h link).counter = L.counter := by
  rw [writeBlock]
  split <;> rfl

/-- Behind the end of the file: the gap, and the block. -/
theorem writeBlock_blocks_gap {b : BlockNo} (hb : L.blocks.length ≤ b.index) {data : Bytes}
    (h : data.length = 255) (link : UInt8) :
    (L.writeBlock b data h link).blocks
      = L.blocks ++ List.replicate (b.index - L.blocks.length) Block.zero
        ++ [⟨data, link, h⟩] := by
  rw [writeBlock, dif_neg (by omega)]
  rfl

/-- Behind the last block there is no gap. -/
theorem writeBlock_blocks_end {b : BlockNo} (hb : b.index = L.blocks.length) {data : Bytes}
    (h : data.length = 255) (link : UInt8) :
    (L.writeBlock b data h link).blocks = L.blocks ++ [⟨data, link, h⟩] := by
  rw [writeBlock_blocks_gap L (Nat.le_of_eq hb.symm), hb, Nat.sub_self, List.replicate_zero,
    List.append_nil]

theorem length_blocks_writeBlock (b : BlockNo) {data : Bytes} (h : data.length = 255)
    (link : UInt8) :
    (L.writeBlock b data h link).blocks.length = max L.blocks.length (b.index + 1) := by
  rw [writeBlock]
  split
  · rw [List.length_set]
    omega
  · rw [List.length_append, length_blocks_growTo L (by omega), List.length_singleton]
    omega

/-- The chunk number `index` of a text, zero padded. -/
def chunk (content : Bytes) (index : Nat) : Bytes :=
  padTo 255 (readAt content (index * 255) 255)

theorem length_chunk (content : Bytes) (index : Nat) :
    (chunk content index).length = 255 :=
  length_padTo (length_readAt_le ..)

/-- `allocateContent` from chunk `index` on. -/
def store (content : Bytes) : Nat → Nat → BlockNo → Layout → UInt8 × Layout
  | 0, _, _, L => (exitFailure, L)
  | fuel + 1, index, b, L =>
      let h := length_chunk content index
      if content.length < (index + 1) * 255 then
        (exitSuccess, L.writeBlock b (chunk content index) h 255)
      else
        let r := L.alloc
        store content fuel (index + 1) r.1 (r.2.writeBlock b (chunk content index) h r.1.val)

end Layout

end DistributedAscii.FileSystem
