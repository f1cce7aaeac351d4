import DistributedAscii.Lib.Outcome
import DistributedAscii.NachOS.Loader

/-!
# NachOS — the constructors of an address space

Both constructors of `userprog/addrspace.cc` with the memory they write, and
with the way in which they stop: at an assertion, or at an access outside an
array. Where no page is free `Find` returns -1; the one for an executable
stores it, the one for a fork writes to the page in front of `mainMemory`.
-/

namespace DistributedAscii.NachOS

open Lib Lib.Paging Lib.Outcome

/-- `ReadAt`, as in `OpenFile.ReadAt`, which does not tell how it stops. -/
def OpenFile.ReadAtChecked (executable : OpenFile) (mainMemory : Nat → Byte) (into numBytes : Nat)
    (position : Int) : Except Crash (Nat → Byte) := do
  -- the assertion of `Lseek`
  check (0 ≤ position) .assertion
  let bytes := ByteFile.readAt executable.bytes position.toNat numBytes
  check (into + bytes.length ≤ MemorySize) .outOfBounds
  .ok (store mainMemory into bytes)

namespace AddrSpace

section Checked

variable (executable : OpenFile) (pageTable : List TranslationEntry) (segment : Segment)

/-- The loop of `copyPages`. -/
def copyPagesChecked : Nat → Nat → Nat → (Nat → Byte) → Except Crash (Nat → Byte)
  | 0, _, _, mainMemory => .ok mainMemory
  | n + 1, i, bytesRead, mainMemory => do
      let pageOffset :=
        if i = startPage segment then unsigned (segment.virtualAddr.toInt.tmod PageSize) else 0
      let bytesToRead :=
        min (unsigned (PageSize - pageOffset)) (unsigned (segment.size.toInt - bytesRead))
      let entry ← need pageTable[i]? .outOfBounds
      let physicalAddr := unsigned (entry.physicalPage * PageSize + pageOffset)
      let mainMemory ← executable.ReadAtChecked mainMemory physicalAddr bytesToRead
        (wrap32 (segment.inFileAddr.toInt + bytesRead))
      copyPagesChecked n (i + 1) (bytesRead + bytesToRead) mainMemory

def loadSegmentChecked (mainMemory : Nat → Byte) : Except Crash (Nat → Byte) :=
  if 0 < segment.size.toInt then
    copyPagesChecked executable pageTable segment (endPage segment + 1 - startPage segment)
      (startPage segment) 0 mainMemory
  else .ok mainMemory

end Checked

/-- `AddrSpace(OpenFile *executable)`. A file without a whole header leaves
in it what was on the stack, which counts as an access outside. -/
def ofExecutable (executable : OpenFile) (MiMapa : BitMap) (machine : Machine) :
    Except Crash Loaded := do
  let noffH ← need (NoffSegments.read executable) .outOfBounds
  let pages ← need (load noffH.header MiMapa) .assertion
  let zeroed := bzero machine.mainMemory (pages.1.numPages * PageSize)
  let mainMemory ← loadSegmentChecked executable pages.1.pageTable noffH.code zeroed
  let mainMemory ← loadSegmentChecked executable pages.1.pageTable noffH.initData mainMemory
  .ok ⟨pages.1, pages.2, { machine with mainMemory }⟩

/-- `bzero(&mainMemory[physicalPage * PageSize], PageSize)`. -/
def bzeroPage (mainMemory : Nat → Byte) (physicalPage : Int) : Except Crash (Nat → Byte) := do
  check (0 ≤ physicalPage * PageSize ∧ physicalPage * PageSize + PageSize ≤ MemorySize)
    .outOfBounds
  .ok fun p => if p / PageSize = physicalPage.toNat then 0 else mainMemory p

/-- The second loop of `AddrSpace(AddrSpace *space)`, for `n` pages from `i`
on. -/
def newStack (MiMapa : BitMap) (mainMemory : Nat → Byte) (i : Nat) :
    Nat → Except Crash (List TranslationEntry × BitMap × (Nat → Byte))
  | 0 => .ok ([], MiMapa, mainMemory)
  | n + 1 => do
      let found := MiMapa.Find
      let mainMemory ← bzeroPage mainMemory found.1
      let rest ← newStack found.2 mainMemory (i + 1) n
      .ok ({ virtualPage := i, physicalPage := found.1, valid := true, readOnly := false } ::
        rest.1, rest.2)

/-- `AddrSpace(AddrSpace *space)`. -/
def ofSpace (space : AddrSpace) (MiMapa : BitMap) (machine : Machine) : Except Crash Loaded := do
  -- with fewer pages than a stack the unsigned `size` wraps
  check (stackPages ≤ space.numPages) .outOfBounds
  let size := space.numPages - stackPages
  let stack ← newStack MiMapa machine.mainMemory size stackPages
  .ok ⟨⟨space.pageTable.take size ++ stack.1⟩, stack.2.1,
    { machine with mainMemory := stack.2.2 }⟩

/-! ## The same constructors -/

theorem ReadAtChecked_toOption (executable : OpenFile) (m : Nat → Byte) (into numBytes : Nat)
    (position : Int) : (executable.ReadAtChecked m into numBytes position).toOption =
      executable.ReadAt m into numBytes position := by
  unfold OpenFile.ReadAtChecked OpenFile.ReadAt
  by_cases hposition : 0 ≤ position
  · by_cases hfits : into + (ByteFile.readAt executable.bytes position.toNat numBytes).length ≤
        MemorySize
    · simp [check, hposition, hfits, bind, Except.bind, Except.toOption]
    · simp [check, hposition, hfits, bind, Except.bind, Except.toOption]
  · simp [check, hposition, bind, Except.bind, Except.toOption]

section ToOption

variable {executable : OpenFile} {pageTable : List TranslationEntry} {segment : Segment}

theorem copyPagesChecked_toOption (n i bytesRead : Nat) (m : Nat → Byte) :
    (copyPagesChecked executable pageTable segment n i bytesRead m).toOption =
      copyPages executable pageTable segment n i bytesRead m := by
  induction n generalizing i bytesRead m with
  | zero => rfl
  | succ n ih =>
      simp only [copyPagesChecked, copyPages, toOption_bind, need_toOption,
        ReadAtChecked_toOption, ih]

theorem loadSegmentChecked_toOption (m : Nat → Byte) :
    (loadSegmentChecked executable pageTable segment m).toOption =
      loadSegment executable pageTable segment m := by
  unfold loadSegmentChecked loadSegment
  split
  · exact copyPagesChecked_toOption _ _ _ m
  · rfl

end ToOption

theorem ofExecutable_toOption (executable : OpenFile) (MiMapa : BitMap) (machine : Machine) :
    (ofExecutable executable MiMapa machine).toOption =
      loadExecutable executable MiMapa machine := by
  simp only [ofExecutable, loadExecutable, toOption_bind, need_toOption,
    loadSegmentChecked_toOption, toOption_ok, Option.map_eq_bind, Function.comp_def]

/-! ## The new stack -/

theorem bzeroPage_of_lt (m : Nat → Byte) {p : Nat} (hp : p < NumPhysPages) :
    bzeroPage m p = .ok fun a => if a / PageSize = p then 0 else m a := by
  have hpage : (PageSize : Int) = 128 := by norm_num [PageSize]
  have hmemory : (MemorySize : Int) = 32 * 128 := by
    norm_num [MemorySize, NumPhysPages, PageSize]
  have hlt : p < 32 := hp
  have hfits : 0 ≤ (p : Int) * PageSize ∧ (p : Int) * PageSize + PageSize ≤ MemorySize := by
    rw [hpage, hmemory]
    omega
  rw [bzeroPage, check, if_pos hfits, Int.toNat_natCast]
  rfl

theorem bzeroPage_neg (m : Nat → Byte) : bzeroPage m (-1) = .error .outOfBounds := rfl

/-- With enough free pages the stack is on the first ones, cleared. -/
theorem newStack_ok {MiMapa : BitMap} {n : Nat} (hbits : MiMapa.numBits = NumPhysPages)
    (hn : n ≤ MiMapa.NumClear) (m : Nat → Byte) (i : Nat) :
    newStack MiMapa m i n = .ok ((findPages MiMapa i n).1, (findPages MiMapa i n).2,
      fun a => if a / PageSize ∈ frames MiMapa n then 0 else m a) := by
  induction n generalizing MiMapa m i with
  | zero => simp [newStack, findPages, frames]
  | succ n ih =>
      rw [← BitMap.length_clearBits] at hn
      cases hclear : MiMapa.clearBits with
      | nil =>
          rw [hclear] at hn
          cases hn
      | cons p rest =>
          have hp := (BitMap.mem_clearBits.mp (hclear ▸ List.mem_cons_self)).1
          have hrest := BitMap.clearBits_markBit hclear
          rw [hclear, List.length_cons] at hn
          have henough : n ≤ (MiMapa.markBit p).NumClear := by
            rw [← BitMap.length_clearBits, hrest]
            omega
          have hbits' : (MiMapa.markBit p).numBits = NumPhysPages := hbits
          have hloop := ih hbits' henough (fun a => if a / PageSize = p then 0 else m a) (i + 1)
          simp only [newStack, findPages, BitMap.Find_of_clearBits hclear,
            bzeroPage_of_lt m (hbits ▸ hp), hloop, bind, Except.bind, Except.ok.injEq,
            Prod.mk.injEq, true_and]
          funext a
          by_cases ha : a / PageSize = p
          · simp [frames, hclear, hrest, ha]
          · simp [frames, hclear, hrest, ha]

/-- Without, the page in front of the memory is cleared. -/
theorem newStack_outOfBounds {MiMapa : BitMap} {n : Nat} (hbits : MiMapa.numBits = NumPhysPages)
    (hn : MiMapa.NumClear < n) (m : Nat → Byte) (i : Nat) :
    newStack MiMapa m i n = .error .outOfBounds := by
  induction n generalizing MiMapa m i with
  | zero => cases hn
  | succ n ih =>
      rw [← BitMap.length_clearBits] at hn
      cases hclear : MiMapa.clearBits with
      | nil =>
          obtain ⟨k, hk, hbit, -, -⟩ | ⟨hfind, -⟩ := MiMapa.Find_cases
          · have hmem : k ∈ MiMapa.clearBits := BitMap.mem_clearBits.mpr ⟨hk, hbit⟩
            rw [hclear] at hmem
            cases hmem
          · simp only [newStack, hfind, bzeroPage_neg, bind, Except.bind]
      | cons p rest =>
          have hp := (BitMap.mem_clearBits.mp (hclear ▸ List.mem_cons_self)).1
          have hrest := BitMap.clearBits_markBit hclear
          rw [hclear, List.length_cons] at hn
          have hshort : (MiMapa.markBit p).NumClear < n := by
            rw [← BitMap.length_clearBits, hrest]
            omega
          have hbits' : (MiMapa.markBit p).numBits = NumPhysPages := hbits
          have hloop := ih hbits' hshort (fun a => if a / PageSize = p then 0 else m a) (i + 1)
          simp only [newStack, BitMap.Find_of_clearBits hclear, bzeroPage_of_lt m (hbits ▸ hp),
            hloop, bind, Except.bind]

/-- However it ends, it takes the pages that `findPages` takes. -/
theorem newStack_findPages {MiMapa : BitMap} {m : Nat → Byte} {i n : Nat}
    {stack : List TranslationEntry × BitMap × (Nat → Byte)}
    (h : newStack MiMapa m i n = .ok stack) :
    stack.1 = (findPages MiMapa i n).1 ∧ stack.2.1 = (findPages MiMapa i n).2 := by
  induction n generalizing MiMapa m i stack with
  | zero =>
      cases h
      exact ⟨rfl, rfl⟩
  | succ n ih =>
      obtain ⟨m', -, h⟩ := bind_eq_ok.mp h
      obtain ⟨rest, hrest, h⟩ := bind_eq_ok.mp h
      obtain ⟨hpages, hmap⟩ := ih hrest
      cases h
      simp only [findPages, hpages, hmap, and_self]

section OfSpace

variable {space : AddrSpace} {MiMapa : BitMap}

/-- A copy has the pages in front of the stack in common, and a stack of
pages that were found for it. -/
theorem ofSpace_some {machine : Machine} {child : Loaded}
    (h : ofSpace space MiMapa machine = .ok child) :
    stackPages ≤ space.numPages ∧
      child.space.pageTable = space.pageTable.take (space.numPages - stackPages) ++
        (findPages MiMapa (space.numPages - stackPages) stackPages).1 ∧
      child.MiMapa = (findPages MiMapa (space.numPages - stackPages) stackPages).2 := by
  obtain ⟨_, hpages, h⟩ := bind_eq_ok.mp h
  obtain ⟨stack, hstack, h⟩ := bind_eq_ok.mp h
  obtain ⟨htable, hmap⟩ := newStack_findPages hstack
  rw [check_eq_ok] at hpages
  cases h
  exact ⟨hpages, by rw [htable], hmap⟩

theorem numPages_ofSpace {machine : Machine} {child : Loaded}
    (h : ofSpace space MiMapa machine = .ok child) : child.space.numPages = space.numPages := by
  obtain ⟨hpages, htable, -⟩ := ofSpace_some h
  rw [numPages, htable, List.length_append, List.length_take, length_findPages]
  simp only [numPages] at *
  omega

/-- What the constructor for a fork does where the pages suffice. -/
theorem ofSpace_ok (hpages : stackPages ≤ space.numPages) (hbits : MiMapa.numBits = NumPhysPages)
    (hfree : stackPages ≤ MiMapa.NumClear) (machine : Machine) :
    ofSpace space MiMapa machine = .ok
      ⟨⟨space.pageTable.take (space.numPages - stackPages) ++
          (findPages MiMapa (space.numPages - stackPages) stackPages).1⟩,
        (findPages MiMapa (space.numPages - stackPages) stackPages).2,
        { machine with mainMemory := fun a =>
            if a / PageSize ∈ frames MiMapa stackPages then 0 else machine.mainMemory a }⟩ := by
  simp only [ofSpace, check, if_pos hpages, newStack_ok hbits hfree, bind, Except.bind]

theorem ofSpace_outOfBounds (hpages : stackPages ≤ space.numPages)
    (hbits : MiMapa.numBits = NumPhysPages) (hfree : MiMapa.NumClear < stackPages)
    (machine : Machine) : ofSpace space MiMapa machine = .error .outOfBounds := by
  simp only [ofSpace, check, if_pos hpages, newStack_outOfBounds hbits hfree, bind, Except.bind]

/-- The page table and the map are those of `copy`. -/
theorem ofSpace_toOption (hbits : MiMapa.numBits = NumPhysPages) (machine : Machine) :
    (ofSpace space MiMapa machine).toOption.map (fun child => (child.space, child.MiMapa)) =
      space.copy MiMapa := by
  by_cases hpages : stackPages ≤ space.numPages
  · by_cases hfree : stackPages ≤ MiMapa.NumClear
    · have hfound : ∀ entry ∈ (findPages MiMapa (space.numPages - stackPages) stackPages).1,
          entry.physicalPage ≠ -1 := by
        intro entry hentry
        have hpage : entry.physicalPage ∈ (findPages MiMapa (space.numPages - stackPages)
            stackPages).1.map (·.physicalPage) := List.mem_map.mpr ⟨entry, hentry, rfl⟩
        rw [← BitMap.length_clearBits] at hfree
        rw [findPages_physicalPage hfree, List.mem_map] at hpage
        obtain ⟨p, -, hpage⟩ := hpage
        omega
      simp only [ofSpace_ok hpages hbits hfree, toOption_ok, Option.map_some, copy, if_pos hpages,
        if_pos hfound]
    · have hshort : MiMapa.NumClear < stackPages := by omega
      have hmissing : ¬∀ entry ∈ (findPages MiMapa (space.numPages - stackPages) stackPages).1,
          entry.physicalPage ≠ -1 := by
        rw [← BitMap.length_clearBits] at hshort
        obtain ⟨entry, hentry, hpage⟩ :=
          findPages_exhausted (i := space.numPages - stackPages) hshort
        exact fun hall => hall entry hentry hpage
      simp only [ofSpace_outOfBounds hpages hbits hshort, toOption_error, Option.map_none, copy,
        if_pos hpages, if_neg hmissing]
  · simp only [copy, ofSpace, check, if_neg hpages, toOption_bind, toOption_error,
      Option.bind_none, Option.map_none]

end OfSpace

end AddrSpace

end DistributedAscii.NachOS
