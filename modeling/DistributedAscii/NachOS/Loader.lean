import DistributedAscii.Lib.ByteFile
import DistributedAscii.Lib.Paging
import DistributedAscii.NachOS.Machine
import DistributedAscii.NachOS.Semaphore

/-!
# NachOS — the loader

`AddrSpace(OpenFile *executable)` of `userprog/addrspace.cc` as a whole: it
reads the NOFF header, takes the pages, clears memory and copies the code
and the initialized data page by page. Between two segments and whatever the
frames, this is one copy through the page table (`loadSegment_some`).

`OpenFile` is that of `FILESYS_STUB`, with which `userprog` is built.
-/

namespace DistributedAscii.NachOS

open Lib Lib.Paging

def MemorySize : Nat := NumPhysPages * PageSize

/-- An `int` in an unsigned expression. -/
def unsigned (n : Int) : Nat :=
  (n % 2 ^ 32).toNat

theorem unsigned_natCast {n : Nat} (h : n < 2 ^ 32) : unsigned n = n := by
  simp only [unsigned]
  omega

/-- Its positions and lengths are `int`s. -/
structure OpenFile where
  bytes : List Byte
  length_lt : bytes.length < 2 ^ 31

/-- `ReadAt(&mainMemory[into], numBytes, position)`: `Lseek` asserts that the
position is one, and `ReadPartial` reads what is there. -/
def OpenFile.ReadAt (executable : OpenFile) (mainMemory : Nat → Byte) (into numBytes : Nat)
    (position : Int) : Option (Nat → Byte) :=
  if 0 ≤ position then
    let bytes := ByteFile.readAt executable.bytes position.toNat numBytes
    if into + bytes.length ≤ MemorySize then some (store mainMemory into bytes) else none
  else none

structure Segment where
  virtualAddr : Int32
  inFileAddr : Int32
  size : Int32
deriving DecidableEq

namespace Segment

/-- A segment with nothing in it, or inside a space of `n` pages. -/
def Inside (segment : Segment) (n : Nat) : Prop :=
  0 < segment.size.toInt → 0 ≤ segment.virtualAddr.toInt ∧
    segment.virtualAddr.toInt + segment.size.toInt ≤ n * PageSize

instance (segment : Segment) (n : Nat) : Decidable (segment.Inside n) :=
  inferInstanceAs (Decidable (_ → _ ∧ _))

/-- A segment with nothing in it, or inside the file. -/
def InFile (segment : Segment) (executable : OpenFile) : Prop :=
  0 < segment.size.toInt → 0 ≤ segment.inFileAddr.toInt ∧
    segment.inFileAddr.toInt + segment.size.toInt ≤ executable.bytes.length

/-- Byte `v` of the space belongs to the segment. -/
def Covers (segment : Segment) (v : Nat) : Prop :=
  segment.virtualAddr.toInt ≤ v ∧ (v : Int) < segment.virtualAddr.toInt + segment.size.toInt

end Segment

/-- All fields of a NOFF header. -/
structure NoffSegments where
  noffMagic : Int32
  code : Segment
  initData : Segment
  uninitData : Segment
deriving DecidableEq

namespace NoffSegments

/-- The fields that the page table depends on. -/
def header (noffH : NoffSegments) : NoffHeader where
  noffMagic := noffH.noffMagic.toInt
  codeSize := noffH.code.size.toInt
  initDataSize := noffH.initData.size.toInt
  uninitDataSize := noffH.uninitData.size.toInt

def numPages (noffH : NoffSegments) : Nat :=
  AddrSpace.pagesOf noffH.header

/-- What the two assertions let through. -/
structure Accepted (noffH : NoffSegments) : Prop where
  noffMagic : noffH.noffMagic.toInt = NOFFMAGIC
  numPages : noffH.numPages ≤ NumPhysPages

/-- Its segments with a content lie in the space. -/
structure Inside (noffH : NoffSegments) : Prop where
  code : noffH.code.Inside noffH.numPages
  initData : noffH.initData.Inside noffH.numPages

instance (noffH : NoffSegments) : Decidable noffH.Accepted :=
  decidable_of_iff (noffH.noffMagic.toInt = NOFFMAGIC ∧ noffH.numPages ≤ NumPhysPages)
    ⟨fun h => ⟨h.1, h.2⟩, fun h => ⟨h.noffMagic, h.numPages⟩⟩

instance (noffH : NoffSegments) : Decidable noffH.Inside :=
  decidable_of_iff (noffH.code.Inside noffH.numPages ∧ noffH.initData.Inside noffH.numPages)
    ⟨fun h => ⟨h.1, h.2⟩, fun h => ⟨h.code, h.initData⟩⟩

/-- The `i`-th `int` of the file. -/
def intAt (bytes : List Byte) (i : Nat) : Int32 :=
  .ofBitVec (bytes.getD (4 * i + 3) 0 ++ bytes.getD (4 * i + 2) 0 ++ bytes.getD (4 * i + 1) 0 ++
    bytes.getD (4 * i) 0 : BitVec (8 + 8 + 8 + 8))

def segmentAt (bytes : List Byte) (i : Nat) : Segment where
  virtualAddr := intAt bytes i
  inFileAddr := intAt bytes (i + 1)
  size := intAt bytes (i + 2)

/-- `ReadAt((char *)&noffH, sizeof(noffH), 0)`. A shorter file leaves in the
header what was on the stack. -/
def read (executable : OpenFile) : Option NoffSegments :=
  if 40 ≤ executable.bytes.length then
    some {
      noffMagic := intAt executable.bytes 0
      code := segmentAt executable.bytes 1
      initData := segmentAt executable.bytes 4
      uninitData := segmentAt executable.bytes 7 }
  else none

end NoffSegments

namespace AddrSpace

/-- `bzero(mainMemory, size)`. -/
def bzero (mainMemory : Nat → Byte) (size : Nat) : Nat → Byte :=
  fun p => if p < size then 0 else mainMemory p

def startPage (segment : Segment) : Nat :=
  unsigned (segment.virtualAddr.toInt.tdiv PageSize)

def endPage (segment : Segment) : Nat :=
  unsigned ((wrap32 (segment.virtualAddr.toInt + segment.size.toInt - 1)).tdiv PageSize)

section Copy

variable (executable : OpenFile) (pageTable : List TranslationEntry) (segment : Segment)

/-- The loop of a segment, for `n` pages from `i` on. An entry behind the
table, or without a page, ends in an access outside the memory. -/
def copyPages : Nat → Nat → Nat → (Nat → Byte) → Option (Nat → Byte)
  | 0, _, _, mainMemory => some mainMemory
  | n + 1, i, bytesRead, mainMemory =>
      let pageOffset :=
        if i = startPage segment then unsigned (segment.virtualAddr.toInt.tmod PageSize) else 0
      let bytesToRead :=
        min (unsigned (PageSize - pageOffset)) (unsigned (segment.size.toInt - bytesRead))
      pageTable[i]?.bind fun entry =>
        let physicalAddr := unsigned (entry.physicalPage * PageSize + pageOffset)
        (executable.ReadAt mainMemory physicalAddr bytesToRead
          (wrap32 (segment.inFileAddr.toInt + bytesRead))).bind
          (copyPages n (i + 1) (bytesRead + bytesToRead))

/-- A segment, page by page. -/
def loadSegment (mainMemory : Nat → Byte) : Option (Nat → Byte) :=
  if 0 < segment.size.toInt then
    copyPages executable pageTable segment (endPage segment + 1 - startPage segment)
      (startPage segment) 0 mainMemory
  else some mainMemory

end Copy

def RestoreState (space : AddrSpace) (machine : Machine) : Machine :=
  { machine with pageTable := space.pageTable }

/-- What the constructor leaves behind. -/
structure Loaded where
  space : AddrSpace
  MiMapa : BitMap
  machine : Machine

/-- `AddrSpace(OpenFile *executable)`. -/
def loadExecutable (executable : OpenFile) (MiMapa : BitMap) (machine : Machine) :
    Option Loaded :=
  (NoffSegments.read executable).bind fun noffH =>
    (load noffH.header MiMapa).bind fun pages =>
      let zeroed := bzero machine.mainMemory (pages.1.numPages * PageSize)
      (loadSegment executable pages.1.pageTable noffH.code zeroed).bind fun mainMemory =>
        (loadSegment executable pages.1.pageTable noffH.initData mainMemory).map
          fun mainMemory => ⟨pages.1, pages.2, { machine with mainMemory }⟩

/-- What the program reads at an address, once it runs. -/
def Loaded.byteAt (loaded : Loaded) (v : Nat) : Except ExceptionType Byte :=
  let machine := loaded.space.RestoreState loaded.machine
  (machine.Translate (BitVec.ofNat 32 v) false).map machine.mainMemory

/-! ## The page table -/

/-- The table maps page `i` to `frames[i]`; these are pages of their own. -/
structure Mapped (pageTable : List TranslationEntry) (frames : List Nat) : Prop where
  entry : ∀ i < frames.length, pageTable[i]? = some ⟨i, (frames.getD i 0 : Nat), true, false⟩
  bound : ∀ p ∈ frames, p < NumPhysPages
  nodup : frames.Nodup

/-- The frames of a program of `n` pages. -/
def frames (MiMapa : BitMap) (n : Nat) : List Nat :=
  MiMapa.clearBits.take n

theorem mapped_findPages {MiMapa : BitMap} {n : Nat} (hbits : MiMapa.numBits = NumPhysPages)
    (hn : n ≤ MiMapa.NumClear) : Mapped (findPages MiMapa 0 n).1 (frames MiMapa n) where
  entry i hi := by
    rw [← BitMap.length_clearBits] at hn
    rw [frames, List.length_take, Nat.min_eq_left hn] at hi
    rw [findPages_getElem? hn hi, Nat.zero_add, frames, List.getD_eq_getElem?_getD,
      List.getD_eq_getElem?_getD, List.getElem?_take_of_lt hi]
  bound p hp := hbits ▸ (BitMap.mem_clearBits.mp (List.mem_of_mem_take hp)).1
  nodup := MiMapa.nodup_clearBits.sublist (List.take_sublist _ _)

namespace Mapped

variable {pageTable : List TranslationEntry} {frames : List Nat} {v : Nat}

theorem entry_of_lt (h : Mapped pageTable frames) (hv : v < frames.length * PageSize) :
    pageTable[v / PageSize]? =
      some ⟨v / PageSize, (frames.getD (v / PageSize) 0 : Nat), true, false⟩ :=
  h.entry _ (Nat.div_lt_of_lt_mul (by rwa [Nat.mul_comm]))

/-- There are no more frames than pages. -/
theorem length_le (h : Mapped pageTable frames) : frames.length ≤ NumPhysPages := by
  have hsub : frames ⊆ List.range NumPhysPages := fun p hp => List.mem_range.mpr (h.bound p hp)
  have hle := (List.subperm_of_subset h.nodup hsub).length_le
  rwa [List.length_range] at hle

theorem locate_lt (h : Mapped pageTable frames) (hv : v < frames.length * PageSize) :
    locate frames PageSize v < MemorySize := by
  have hframe := h.bound _ (getD_mem hv)
  simp only [locate, MemorySize, NumPhysPages, PageSize] at *
  omega

/-- The table takes a byte of the space where the frames have it. -/
theorem translate (h : Mapped pageTable frames) (hv : v < frames.length * PageSize)
    {machine : Machine} (htable : machine.pageTable = pageTable) :
    machine.Translate (BitVec.ofNat 32 v) false = .ok (locate frames PageSize v) := by
  have hlength := h.length_le
  have hframe := h.bound _ (getD_mem hv)
  have hword : (BitVec.ofNat 32 v).toNat = v := by
    rw [BitVec.toNat_ofNat]
    simp only [NumPhysPages, PageSize] at *
    omega
  simp only [Machine.Translate, hword, htable, h.entry_of_lt hv]
  rw [if_neg (by simp), if_neg (by simp),
    if_pos ⟨Int.natCast_nonneg _, Int.ofNat_lt.mpr hframe⟩, Int.toNat_natCast]
  rfl

end Mapped

/-! ## The copy of a segment -/

theorem ReadAt_some {executable : OpenFile} {m m' : Nat → Byte} {into numBytes : Nat}
    {position : Int} (h : executable.ReadAt m into numBytes position = some m') :
    0 ≤ position ∧
      m' = store m into (ByteFile.readAt executable.bytes position.toNat numBytes) := by
  obtain ⟨hposition, h⟩ := Option.ite_none_right_eq_some.mp h
  obtain ⟨-, h⟩ := Option.ite_none_right_eq_some.mp h
  exact ⟨hposition, (Option.some.inj h).symm⟩

theorem ReadAt_position {executable : OpenFile} {m m' : Nat → Byte} {into numBytes pos r : Nat}
    {inFileAddr : Int32} (hpos : inFileAddr.toInt = pos) (hr : r ≤ 2 ^ 12)
    (h : executable.ReadAt m into numBytes (wrap32 (inFileAddr.toInt + r)) = some m') :
    m' = store m into (ByteFile.readAt executable.bytes (pos + r) numBytes) := by
  obtain ⟨hposition, rfl⟩ := ReadAt_some h
  have hrange := Int32.toInt_lt inFileAddr
  have hwrap : wrap32 (inFileAddr.toInt + r) = (pos + r : Nat) := by
    simp only [wrap32, Int.bmod] at hposition ⊢
    omega
  rw [hwrap, Int.toNat_natCast]

theorem ReadAt_isSome {executable : OpenFile} (m : Nat → Byte) {into numBytes : Nat}
    {position : Int} (hposition : 0 ≤ position) (hfits : into + numBytes ≤ MemorySize) :
    (executable.ReadAt m into numBytes position).isSome := by
  have hlength := ByteFile.length_readAt_le executable.bytes position.toNat numBytes
  rw [OpenFile.ReadAt, if_pos hposition, if_pos (by omega)]
  rfl

/-- The bytes that one pass of the loop copies, behind `r` of them. -/
def chunk (va size r : Nat) : Nat :=
  min (PageSize - (va + r) % PageSize) (size - r)

/-- Behind `r` bytes the loop is at page `i`, with `n` pages more to come. -/
structure AtPage (va size i r n : Nat) : Prop where
  more : r < size
  page : i = (va + r) / PageSize
  left : i + n = (va + size - 1) / PageSize
  aligned : r = 0 ∨ (va + r) % PageSize = 0

namespace AtPage

variable {va size i r n : Nat}

theorem start (hsize : 0 < size) :
    AtPage va size (va / PageSize) 0 ((va + size - 1) / PageSize - va / PageSize) := by
  refine ⟨hsize, rfl, ?_, .inl rfl⟩
  simp only [PageSize]
  omega

/-- The last page takes the rest. -/
theorem last (h : AtPage va size i r 0) : chunk va size r = size - r := by
  obtain ⟨hmore, hpage, hleft, -⟩ := h
  simp only [chunk, PageSize] at *
  omega

/-- A page that is not the last one is filled. -/
theorem next (h : AtPage va size i r (n + 1)) :
    AtPage va size (i + 1) (r + chunk va size r) n := by
  obtain ⟨hmore, hpage, hleft, -⟩ := h
  constructor <;> simp only [chunk, PageSize] at * <;> omega

/-- `pageOffset`, whether the page is the first one or not. -/
theorem offset (h : AtPage va size i r n) :
    (if i = va / PageSize then va % PageSize else 0) = (va + r) % PageSize := by
  obtain ⟨-, hpage, -, haligned⟩ := h
  by_cases hfirst : i = va / PageSize
  · rw [if_pos hfirst]
    simp only [PageSize] at *
    omega
  · rw [if_neg hfirst]
    simp only [PageSize] at *
    omega

end AtPage

/-- A segment of `size` bytes at `va`, inside the space. -/
structure Lies (segment : Segment) (frames : List Nat) (va size : Nat) : Prop where
  virtualAddr : segment.virtualAddr.toInt = va
  size_eq : segment.size.toInt = size
  inside : va + size ≤ frames.length * PageSize
  length_le : frames.length ≤ NumPhysPages

theorem Lies.small {segment : Segment} {frames : List Nat} {va size : Nat}
    (h : Lies segment frames va size) : va + size ≤ 2 ^ 12 := by
  have hinside := h.inside
  have hlength := h.length_le
  simp only [NumPhysPages, PageSize] at *
  omega

section CopyPages

theorem startPage_eq {segment : Segment} {va : Nat} (hva : segment.virtualAddr.toInt = va)
    (hfits : va < 2 ^ 31) : startPage segment = va / PageSize := by
  rw [startPage, hva, ← Int.ofNat_tdiv, unsigned_natCast]
  simp only [PageSize]
  omega

theorem endPage_eq {segment : Segment} {va size : Nat} (hva : segment.virtualAddr.toInt = va)
    (hsize : segment.size.toInt = size) (hpos : 0 < size) (hfits : va + size < 2 ^ 31) :
    endPage segment = (va + size - 1) / PageSize := by
  have hlast : (va : Int) + size - 1 = (va + size - 1 : Nat) := by omega
  rw [endPage, hva, hsize, wrap32_of_range (by omega) (by omega), hlast, ← Int.ofNat_tdiv,
    unsigned_natCast]
  simp only [PageSize]
  omega

variable {executable : OpenFile} {pageTable : List TranslationEntry} {frames : List Nat}
  {segment : Segment} {va size i r n : Nat}

/-- What one pass computes: the entry of its page, the offset in that page,
how much it copies, and where to. -/
theorem pass_eq (hmapped : Mapped pageTable frames) (hlies : Lies segment frames va size)
    (hat : AtPage va size i r n) :
    pageTable[i]? =
        some ⟨(va + r) / PageSize, (frames.getD ((va + r) / PageSize) 0 : Nat), true, false⟩ ∧
      (if i = startPage segment then unsigned (segment.virtualAddr.toInt.tmod PageSize) else 0) =
        (va + r) % PageSize ∧
      min (unsigned (PageSize - ((va + r) % PageSize : Nat)))
        (unsigned (segment.size.toInt - r)) = chunk va size r ∧
      unsigned ((frames.getD ((va + r) / PageSize) 0 : Nat) * PageSize +
        ((va + r) % PageSize : Nat)) = locate frames PageSize (va + r) := by
  have hsmall := hlies.small
  have hmore := hat.more
  have hin : va + r < frames.length * PageSize := by
    have := hlies.inside
    omega
  have hoffset : (if i = startPage segment then unsigned (segment.virtualAddr.toInt.tmod PageSize)
      else 0) = (va + r) % PageSize := by
    rw [startPage_eq hlies.virtualAddr (by omega), hlies.virtualAddr, ← Int.ofNat_tmod,
      unsigned_natCast (by simp only [PageSize]; omega)]
    exact hat.offset
  have hroom : unsigned (PageSize - ((va + r) % PageSize : Nat)) =
      PageSize - (va + r) % PageSize := by
    simp only [unsigned, PageSize]
    omega
  -- none of the differences goes below 0, so nothing wraps
  have hrest : unsigned (segment.size.toInt - r) = size - r := by
    rw [hlies.size_eq]
    simp only [unsigned]
    omega
  have hplace : unsigned ((frames.getD ((va + r) / PageSize) 0 : Nat) * PageSize +
      ((va + r) % PageSize : Nat)) = locate frames PageSize (va + r) := by
    have := hmapped.locate_lt hin
    rw [← unsigned_natCast (n := locate frames PageSize (va + r)) (by
      simp only [MemorySize, NumPhysPages, PageSize] at *
      omega), locate]
    push_cast
    rfl
  refine ⟨?_, hoffset, ?_, hplace⟩
  · rw [hat.page]
    exact hmapped.entry_of_lt hin
  · rw [hroom, hrest, chunk]

/-- One pass: the chunk goes to where the table has its first byte. -/
theorem copyPages_succ (hmapped : Mapped pageTable frames) (hlies : Lies segment frames va size)
    (hat : AtPage va size i r n) (m : Nat → Byte) :
    copyPages executable pageTable segment (n + 1) i r m =
      (executable.ReadAt m (locate frames PageSize (va + r)) (chunk va size r)
        (wrap32 (segment.inFileAddr.toInt + r))).bind
        (copyPages executable pageTable segment n (i + 1) (r + chunk va size r)) := by
  obtain ⟨hentry, hoffset, hchunk, hplace⟩ := pass_eq hmapped hlies hat
  simp only [copyPages, hentry, Option.bind_some, hoffset, hchunk, hplace]

/-- What one pass writes is in the memory. -/
theorem locate_add_chunk_le (hmapped : Mapped pageTable frames)
    (hlies : Lies segment frames va size) (hat : AtPage va size i r n) :
    locate frames PageSize (va + r) + chunk va size r ≤ MemorySize := by
  have hinside := hlies.inside
  have hmore := hat.more
  have hin : va + r < frames.length * PageSize := by omega
  have hframe := hmapped.bound _ (getD_mem hin)
  have hroom : chunk va size r ≤ PageSize - (va + r) % PageSize := Nat.min_le_left ..
  simp only [locate, MemorySize, NumPhysPages, PageSize] at *
  omega

/-- What a pass reads lies in one page, and is the front of what is left. -/
theorem scatter_chunk (hat : AtPage va size i r n) (bytes : List Byte) (pos : Nat)
    (m : Nat → Byte) :
    scatter (locate frames PageSize) (va + (r + chunk va size r))
        (ByteFile.readAt bytes (pos + (r + chunk va size r)) (size - (r + chunk va size r)))
        (store m (locate frames PageSize (va + r))
          (ByteFile.readAt bytes (pos + r) (chunk va size r))) =
      scatter (locate frames PageSize) (va + r)
        (ByteFile.readAt bytes (pos + r) (size - r)) m := by
  have hle : chunk va size r ≤ size - r := Nat.min_le_right ..
  have hpage : chunk va size r ≤ PageSize - (va + r) % PageSize := Nat.min_le_left ..
  have hmore := hat.more
  have hsplit : size - r = chunk va size r + (size - (r + chunk va size r)) := by omega
  have hread := ByteFile.length_readAt_le bytes (pos + r) (chunk va size r)
  have hblock : scatter (locate frames PageSize) (va + r)
      (ByteFile.readAt bytes (pos + r) (chunk va size r)) m =
      store m (locate frames PageSize (va + r))
        (ByteFile.readAt bytes (pos + r) (chunk va size r)) :=
    scatter_eq_store fun k hk => locate_add (by omega)
  rw [← hblock]
  conv_rhs => rw [hsplit, ByteFile.readAt_add, scatter_append]
  by_cases hshort : (ByteFile.readAt bytes (pos + r) (chunk va size r)).length = chunk va size r
  · rw [hshort, Nat.add_assoc, Nat.add_assoc]
  · rw [← Nat.add_assoc pos, ByteFile.readAt_behind hshort]
    rfl

/-- **The loop is one copy through the table**, if it comes to its end. -/
theorem copyPages_some (hmapped : Mapped pageTable frames) (hlies : Lies segment frames va size)
    {pos : Nat} (hpos : segment.inFileAddr.toInt = pos) (hat : AtPage va size i r n)
    {m m' : Nat → Byte}
    (h : copyPages executable pageTable segment (n + 1) i r m = some m') :
    m' = scatter (locate frames PageSize) (va + r)
      (ByteFile.readAt executable.bytes (pos + r) (size - r)) m := by
  have hsmall := hlies.small
  induction n generalizing i r m with
  | zero =>
      rw [copyPages_succ hmapped hlies hat] at h
      obtain ⟨m₁, hread, h⟩ := Option.bind_eq_some_iff.mp h
      cases h
      rw [ReadAt_position hpos (by have := hat.more; omega) hread, ← scatter_chunk hat, hat.last]
      have hend : size - (r + (size - r)) = 0 := by
        have := hat.more
        omega
      rw [hend]
      rfl
  | succ n ih =>
      rw [copyPages_succ hmapped hlies hat] at h
      obtain ⟨m₁, hread, h⟩ := Option.bind_eq_some_iff.mp h
      rw [ih hat.next h, ReadAt_position hpos (by have := hat.more; omega) hread,
        scatter_chunk hat]

/-- It does, if the segment lies in the file. -/
theorem copyPages_isSome (hmapped : Mapped pageTable frames)
    (hlies : Lies segment frames va size) {pos : Nat} (hpos : segment.inFileAddr.toInt = pos)
    (hfile : pos + size ≤ 2 ^ 31) (hat : AtPage va size i r n) (m : Nat → Byte) :
    (copyPages executable pageTable segment (n + 1) i r m).isSome := by
  have hsmall := hlies.small
  have hread : ∀ {i r n} (m : Nat → Byte), AtPage va size i r n →
      ∃ m', executable.ReadAt m (locate frames PageSize (va + r)) (chunk va size r)
        (wrap32 (segment.inFileAddr.toInt + r)) = some m' := by
    intro i r n m hat
    have hmore := hat.more
    refine Option.isSome_iff_exists.mp (ReadAt_isSome m ?_ ?_)
    · rw [hpos, wrap32_of_range (by omega) (by omega)]
      omega
    · exact locate_add_chunk_le hmapped hlies hat
  induction n generalizing i r m with
  | zero =>
      obtain ⟨m', hm'⟩ := hread m hat
      rw [copyPages_succ hmapped hlies hat, hm']
      rfl
  | succ n ih =>
      obtain ⟨m', hm'⟩ := hread m hat
      rw [copyPages_succ hmapped hlies hat, hm']
      exact ih hat.next m'

theorem loadSegment_eq (hlies : Lies segment frames va size) (hpos : 0 < size)
    (m : Nat → Byte) :
    loadSegment executable pageTable segment m =
      copyPages executable pageTable segment
        ((va + size - 1) / PageSize - va / PageSize + 1) (va / PageSize) 0 m := by
  have hsmall := hlies.small
  have hsize : 0 < segment.size.toInt := by
    have := hlies.size_eq
    omega
  have hpages : va / PageSize ≤ (va + size - 1) / PageSize := Nat.div_le_div_right (by omega)
  rw [loadSegment, if_pos hsize, startPage_eq hlies.virtualAddr (by omega),
    endPage_eq hlies.virtualAddr hlies.size_eq hpos (by omega), Nat.succ_sub hpages]

end CopyPages

/-- The bytes of a segment, as far as the file has them. -/
def content (executable : OpenFile) (segment : Segment) : List Byte :=
  ByteFile.readAt executable.bytes segment.inFileAddr.toInt.toNat segment.size.toInt.toNat

theorem length_content_le (executable : OpenFile) (segment : Segment) :
    (content executable segment).length ≤ segment.size.toInt.toNat :=
  ByteFile.length_readAt_le ..

section LoadSegment

variable {executable : OpenFile} {pageTable : List TranslationEntry} {frames : List Nat}
  {segment : Segment} {m m' : Nat → Byte}

theorem Mapped.lies (hmapped : Mapped pageTable frames) (hinside : segment.Inside frames.length)
    (hsize : 0 < segment.size.toInt) :
    Lies segment frames segment.virtualAddr.toInt.toNat segment.size.toInt.toNat := by
  obtain ⟨hlow, hhigh⟩ := hinside hsize
  exact ⟨by omega, by omega, by omega, hmapped.length_le⟩

/-- In front of the file there is nothing to read. -/
theorem inFileAddr_nonneg (hmapped : Mapped pageTable frames)
    (hinside : segment.Inside frames.length) (hsize : 0 < segment.size.toInt)
    (h : loadSegment executable pageTable segment m = some m') : 0 ≤ segment.inFileAddr.toInt := by
  have hlies := hmapped.lies hinside hsize
  rw [loadSegment_eq hlies (by omega), copyPages_succ hmapped hlies (.start (by omega))] at h
  obtain ⟨m₁, hread, -⟩ := Option.bind_eq_some_iff.mp h
  have hposition := (ReadAt_some hread).1
  have hlow := Int32.le_toInt segment.inFileAddr
  have hhigh := Int32.toInt_lt segment.inFileAddr
  rw [wrap32_of_range (by omega) (by omega)] at hposition
  omega

/-- **A segment comes through the page table as a whole.** -/
theorem loadSegment_some (hmapped : Mapped pageTable frames)
    (hinside : segment.Inside frames.length)
    (h : loadSegment executable pageTable segment m = some m') :
    m' = scatter (locate frames PageSize) segment.virtualAddr.toInt.toNat
      (content executable segment) m := by
  by_cases hsize : 0 < segment.size.toInt
  · have hlies := hmapped.lies hinside hsize
    have hpos := inFileAddr_nonneg hmapped hinside hsize h
    rw [loadSegment_eq hlies (by omega)] at h
    exact copyPages_some hmapped hlies (Int.toNat_of_nonneg hpos).symm (.start (by omega)) h
  · rw [loadSegment, if_neg hsize] at h
    cases h
    rw [content, Int.toNat_of_nonpos (by omega : segment.size.toInt ≤ 0)]
    rfl

theorem loadSegment_isSome (hmapped : Mapped pageTable frames)
    (hinside : segment.Inside frames.length) (hfile : segment.InFile executable) (m : Nat → Byte) :
    (loadSegment executable pageTable segment m).isSome := by
  by_cases hsize : 0 < segment.size.toInt
  · have hlies := hmapped.lies hinside hsize
    obtain ⟨hpos, hend⟩ := hfile hsize
    have hbytes := executable.length_lt
    rw [loadSegment_eq hlies (by omega)]
    exact copyPages_isSome hmapped hlies (Int.toNat_of_nonneg hpos).symm (by omega)
      (.start (by omega)) m
  · rw [loadSegment, if_neg hsize]
    rfl

theorem covers_of_lt {k : Nat} (hinside : segment.Inside frames.length)
    (hk : (k : Int) < segment.size.toInt) :
    segment.Covers (segment.virtualAddr.toInt.toNat + k) := by
  have hlow := (hinside (by omega)).1
  constructor <;> omega

/-- A byte of a segment is one of the space. -/
theorem lt_of_covers {v : Nat} (hinside : segment.Inside frames.length)
    (hv : segment.Covers v) : v < frames.length * PageSize := by
  obtain ⟨hlow, hhigh⟩ := hv
  have := (hinside (by omega)).2
  omega

/-- It stays out of what the table does not give for the segment. -/
theorem loadSegment_elsewhere (hmapped : Mapped pageTable frames)
    (hinside : segment.Inside frames.length)
    (h : loadSegment executable pageTable segment m = some m') {p : Nat}
    (hp : ∀ v, segment.Covers v → locate frames PageSize v ≠ p) : m' p = m p := by
  rw [loadSegment_some hmapped hinside h]
  refine scatter_of_ne fun k hk => hp _ (covers_of_lt hinside ?_)
  have := length_content_le executable segment
  omega

/-- A byte that is in the file comes to its place. -/
theorem loadSegment_byte (hmapped : Mapped pageTable frames)
    (hinside : segment.Inside frames.length)
    (h : loadSegment executable pageTable segment m = some m') {k : Nat}
    (hk : k < (content executable segment).length) :
    m' (locate frames PageSize (segment.virtualAddr.toInt.toNat + k)) =
      (content executable segment)[k] := by
  rw [loadSegment_some hmapped hinside h]
  have hin : ∀ i < (content executable segment).length,
      segment.virtualAddr.toInt.toNat + i < frames.length * PageSize := by
    intro i hi
    refine lt_of_covers hinside (covers_of_lt hinside ?_)
    have := length_content_le executable segment
    omega
  refine scatter_apply (fun i hi j hj heq => ?_) hk
  exact Nat.add_left_cancel (locate_inj hmapped.nodup (hin i hi) (hin j hj) heq)

/-- A segment that lies in the file has its content there. -/
theorem content_getElem? {k : Nat} (hfile : segment.InFile executable)
    (hk : (k : Int) < segment.size.toInt) :
    ∃ hk' : k < (content executable segment).length,
      executable.bytes[segment.inFileAddr.toInt.toNat + k]? =
        some (content executable segment)[k] := by
  obtain ⟨hpos, hend⟩ := hfile (by omega)
  have hget : (content executable segment)[k]? =
      executable.bytes[segment.inFileAddr.toInt.toNat + k]? := by
    rw [content, ByteFile.readAt, List.getElem?_take_of_lt (by omega), List.getElem?_drop]
  have hlength : segment.inFileAddr.toInt.toNat + k < executable.bytes.length := by omega
  rw [List.getElem?_eq_getElem hlength] at hget
  obtain ⟨hk', hbyte⟩ := List.getElem?_eq_some_iff.mp hget
  exact ⟨hk', by rw [hbyte, List.getElem?_eq_getElem hlength]⟩

end LoadSegment

/-! ## The constructor -/

variable {executable : OpenFile} {noffH : NoffSegments} {MiMapa : BitMap} {machine : Machine}
  {loaded : Loaded}

theorem length_frames {n : Nat} (hn : n ≤ MiMapa.NumClear) : (frames MiMapa n).length = n := by
  rw [frames, List.length_take, BitMap.length_clearBits, Nat.min_eq_left hn]

/-- The table of the program, and its segments in the space. -/
structure Laid (noffH : NoffSegments) (pageTable : List TranslationEntry) (frames : List Nat) :
    Prop where
  mapped : Mapped pageTable frames
  length_eq : frames.length = noffH.numPages
  code : noffH.code.Inside frames.length
  initData : noffH.initData.Inside frames.length

theorem laid_findPages (hinside : noffH.Inside) (hbits : MiMapa.numBits = NumPhysPages)
    (hfree : noffH.numPages ≤ MiMapa.NumClear) :
    Laid noffH (findPages MiMapa 0 noffH.numPages).1 (frames MiMapa noffH.numPages) := by
  have hframes := length_frames hfree
  refine ⟨mapped_findPages hbits hfree, hframes, ?_, ?_⟩
  · rw [hframes]
    exact hinside.code
  · rw [hframes]
    exact hinside.initData

/-- What the constructor does, up to its end. -/
theorem loadExecutable_some (h : loadExecutable executable MiMapa machine = some loaded)
    (hread : NoffSegments.read executable = some noffH) :
    noffH.Accepted ∧ loaded.space.pageTable = (findPages MiMapa 0 noffH.numPages).1 ∧
      ∃ m, loadSegment executable loaded.space.pageTable noffH.code
          (bzero machine.mainMemory (noffH.numPages * PageSize)) = some m ∧
        loadSegment executable loaded.space.pageTable noffH.initData m =
          some loaded.machine.mainMemory := by
  obtain ⟨noffH', hread', h⟩ := Option.bind_eq_some_iff.mp h
  cases hread.symm.trans hread'
  obtain ⟨⟨space, MiMapa'⟩, hload, h⟩ := Option.bind_eq_some_iff.mp h
  obtain ⟨haccepted, hpages⟩ := Option.ite_none_right_eq_some.mp hload
  cases hpages
  obtain ⟨m, hcode, h⟩ := Option.bind_eq_some_iff.mp h
  obtain ⟨m', hdata, rfl⟩ := Option.map_eq_some_iff.mp h
  rw [numPages, length_findPages] at hcode
  exact ⟨⟨haccepted.1, haccepted.2⟩, rfl, m, hcode, hdata⟩

/-- It comes to its end if the segments lie in the space and in the file. -/
theorem loadExecutable_isSome (hread : NoffSegments.read executable = some noffH)
    (haccepted : noffH.Accepted) (hinside : noffH.Inside)
    (hcode : noffH.code.InFile executable) (hdata : noffH.initData.InFile executable)
    (hbits : MiMapa.numBits = NumPhysPages) (hfree : noffH.numPages ≤ MiMapa.NumClear)
    (machine : Machine) : ∃ loaded, loadExecutable executable MiMapa machine = some loaded := by
  have hlaid := laid_findPages hinside hbits hfree
  have hload : load noffH.header MiMapa =
      some (⟨(findPages MiMapa 0 noffH.numPages).1⟩, (findPages MiMapa 0 noffH.numPages).2) :=
    if_pos ⟨haccepted.noffMagic, haccepted.numPages⟩
  obtain ⟨m, hm⟩ := Option.isSome_iff_exists.mp (loadSegment_isSome hlaid.mapped hlaid.code hcode
    (bzero machine.mainMemory (noffH.numPages * PageSize)))
  obtain ⟨m', hm'⟩ := Option.isSome_iff_exists.mp
    (loadSegment_isSome hlaid.mapped hlaid.initData hdata m)
  refine ⟨⟨⟨(findPages MiMapa 0 noffH.numPages).1⟩, (findPages MiMapa 0 noffH.numPages).2,
    { machine with mainMemory := m' }⟩, ?_⟩
  simp only [loadExecutable, hread, Option.bind_some, hload, numPages, length_findPages, hm, hm',
    Option.map_some]

/-- Byte `v` of the space is the byte of memory where its frame has it. -/
theorem byteAt_eq (hbits : MiMapa.numBits = NumPhysPages)
    (hfree : noffH.numPages ≤ MiMapa.NumClear)
    (htable : loaded.space.pageTable = (findPages MiMapa 0 noffH.numPages).1) {v : Nat}
    (hv : v < noffH.numPages * PageSize) :
    loaded.byteAt v = .ok
      (loaded.machine.mainMemory (locate (frames MiMapa noffH.numPages) PageSize v)) := by
  have hframes := length_frames hfree
  have htranslate : (loaded.space.RestoreState loaded.machine).Translate (BitVec.ofNat 32 v) false =
      .ok (locate (frames MiMapa noffH.numPages) PageSize v) :=
    (mapped_findPages hbits hfree).translate (by rwa [hframes]) htable
  simp only [Loaded.byteAt, htranslate]
  rfl

/-- **Every byte of a segment is in its place**: what the program reads there
is what the file has. -/
theorem segments_loaded (hread : NoffSegments.read executable = some noffH)
    (haccepted : noffH.Accepted) (hinside : noffH.Inside)
    (hdisjoint : ∀ v, noffH.code.Covers v → ¬noffH.initData.Covers v)
    (hcode : noffH.code.InFile executable) (hdata : noffH.initData.InFile executable)
    (hbits : MiMapa.numBits = NumPhysPages) (hfree : noffH.numPages ≤ MiMapa.NumClear)
    (machine : Machine) :
    ∃ loaded, loadExecutable executable MiMapa machine = some loaded ∧
      ∀ segment ∈ [noffH.code, noffH.initData], ∀ k : Nat, (k : Int) < segment.size.toInt →
        ∃ b, executable.bytes[segment.inFileAddr.toInt.toNat + k]? = some b ∧
          loaded.byteAt (segment.virtualAddr.toInt.toNat + k) = .ok b := by
  obtain ⟨loaded, hload⟩ := loadExecutable_isSome hread haccepted hinside hcode hdata hbits hfree
    machine
  obtain ⟨-, htable, m, hm, hm'⟩ := loadExecutable_some hload hread
  have hlaid := laid_findPages hinside hbits hfree
  rw [htable] at hm hm'
  refine ⟨loaded, hload, fun segment hsegment k hk => ?_⟩
  simp only [List.mem_cons, List.not_mem_nil, or_false] at hsegment
  rcases hsegment with rfl | rfl
  · obtain ⟨hk', hbyte⟩ := content_getElem? hcode hk
    have hcovers := covers_of_lt hlaid.code hk
    have hv := lt_of_covers hlaid.code hcovers
    refine ⟨_, hbyte, ?_⟩
    rw [byteAt_eq hbits hfree htable (hlaid.length_eq ▸ hv)]
    -- the data goes elsewhere
    have hkeep := loadSegment_elsewhere hlaid.mapped hlaid.initData hm' fun w hw heq => by
      have hsame := locate_inj hlaid.mapped.nodup (lt_of_covers hlaid.initData hw) hv heq
      exact hdisjoint _ hcovers (hsame ▸ hw)
    rw [hkeep, loadSegment_byte hlaid.mapped hlaid.code hm hk']
  · obtain ⟨hk', hbyte⟩ := content_getElem? hdata hk
    have hv := lt_of_covers hlaid.initData (covers_of_lt hlaid.initData hk)
    refine ⟨_, hbyte, ?_⟩
    rw [byteAt_eq hbits hfree htable (hlaid.length_eq ▸ hv),
      loadSegment_byte hlaid.mapped hlaid.initData hm' hk']

/-- Four bytes of code over the first page boundary and two of data, in a
file without anything else. -/
def boundary : OpenFile where
  bytes := [0xad, 0xdf, 0xba, 0, 126, 0, 0, 0, 40, 0, 0, 0, 4, 0, 0, 0, 200, 0, 0, 0, 44, 0, 0, 0,
    2, 0, 0, 0, 0, 0, 0, 0, 0, 0, 0, 0, 0, 0, 0, 0, 1, 2, 3, 4, 5, 6]
  length_lt := by decide

def boundaryHeader : NoffSegments where
  noffMagic := 0xbadfad
  code := ⟨126, 40, 4⟩
  initData := ⟨200, 44, 2⟩
  uninitData := ⟨0, 0, 0⟩

theorem segments_loaded_boundary :
    ∃ loaded, loadExecutable boundary ((BitMap.new NumPhysPages).markBit 1)
        ⟨fun _ => 0, fun _ => 0, []⟩ = some loaded ∧
      ∀ segment ∈ [boundaryHeader.code, boundaryHeader.initData],
        ∀ k : Nat, (k : Int) < segment.size.toInt →
          ∃ b, boundary.bytes[segment.inFileAddr.toInt.toNat + k]? = some b ∧
            loaded.byteAt (segment.virtualAddr.toInt.toNat + k) = .ok b :=
  segments_loaded (by decide) ⟨by decide, by decide⟩ ⟨fun _ => by decide, fun _ => by decide⟩
    (fun v hcode hdata => by
      have hend : (v : Int) < 130 := hcode.2
      have hstart : (200 : Int) ≤ v := hdata.1
      omega)
    (fun _ => by decide) (fun _ => by decide) rfl (by decide) _

end AddrSpace

end DistributedAscii.NachOS
