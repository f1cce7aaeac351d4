import DistributedAscii.NachOS.Constructors

/-!
# NachOS — what a forked thread shares

The constructor that `Fork` uses takes over the pages in front of the stack
and finds new ones for the stack. Where the stack begins it computes from
`numPages`, which the other constructor has rounded up from the segments and
the stack together. With segments from address 0 on the two roundings agree:
the pages in front of the stack are those of the segments (`Descends.numPages`).
-/

namespace DistributedAscii.NachOS

open Lib Lib.Paging Lib.Outcome

def StackReg : Nat := 29
def NumTotalRegs : Nat := 40

/-- The segments follow each other from address 0 on, `S` bytes in all; it
does not matter where one with nothing in it lies. -/
structure NoffSegments.Contiguous (noffH : NoffSegments) (S : Nat) : Prop where
  code_nonneg : 0 ≤ noffH.code.size.toInt
  initData_nonneg : 0 ≤ noffH.initData.size.toInt
  uninitData_nonneg : 0 ≤ noffH.uninitData.size.toInt
  code : 0 < noffH.code.size.toInt → noffH.code.virtualAddr.toInt = 0
  initData : 0 < noffH.initData.size.toInt →
    noffH.initData.virtualAddr.toInt = noffH.code.size.toInt
  uninitData : 0 < noffH.uninitData.size.toInt →
    noffH.uninitData.virtualAddr.toInt = noffH.code.size.toInt + noffH.initData.size.toInt
  total : noffH.code.size.toInt + noffH.initData.size.toInt + noffH.uninitData.size.toInt = S

namespace AddrSpace

/-- `InitRegisters`. -/
def InitRegisters (space : AddrSpace) (machine : Machine) : Machine :=
  let machine := (List.range NumTotalRegs).foldl (fun m i => m.WriteRegister i 0) machine
  let machine := machine.WriteRegister PCReg 0
  let machine := machine.WriteRegister NextPCReg 4
  machine.WriteRegister StackReg (BitVec.ofInt 32 (space.numPages * PageSize - 16))

/-- The space of the program, or a copy of such a space, however often it was
copied. -/
inductive Descends (noffH : NoffSegments) : AddrSpace → Prop where
  | loaded {executable MiMapa machine program}
      (hread : NoffSegments.read executable = some noffH)
      (h : ofExecutable executable MiMapa machine = .ok program) : Descends noffH program.space
  | forked {space MiMapa machine child} (h : Descends noffH space)
      (hfork : ofSpace space MiMapa machine = .ok child) : Descends noffH child.space

/-- The physical pages of the stack. -/
def stackFrames (space : AddrSpace) : List Int :=
  (space.pageTable.drop (space.numPages - stackPages)).map (·.physicalPage)

/-- What lies below `S` is at the same place for both. -/
def SharesData (S : Nat) (parent : AddrSpace) (child : Loaded) : Prop :=
  ∀ v < S, ∃ p, ∀ writing,
    (parent.RestoreState child.machine).Translate (BitVec.ofNat 32 v) writing = .ok p ∧
      (child.space.RestoreState child.machine).Translate (BitVec.ofNat 32 v) writing = .ok p

/-- The stack of the child is its own, and clear. -/
structure OwnStack (parent : AddrSpace) (MiMapa : BitMap) (child : Loaded) : Prop where
  length : child.space.stackFrames.length = stackPages
  nodup : child.space.stackFrames.Nodup
  free : ∀ p ∈ child.space.stackFrames, MiMapa.Test p = some false
  zero : ∀ p ∈ child.space.stackFrames, ∀ offset < PageSize,
    child.machine.mainMemory (p.toNat * PageSize + offset) = 0
  apart : ∀ p ∈ child.space.stackFrames, ¬parent.Maps p

/-- The stack pointer that the thread starts with, and everything below it
that belongs to the stack, is on the last pages. -/
def StartsOnStack (child : Loaded) : Prop :=
  let sp := ((child.space.InitRegisters child.machine).ReadRegister StackReg).toNat
  sp = child.space.numPages * PageSize - 16 ∧
    ∀ v, sp - (UserStackSize - 16) ≤ v → v ≤ sp →
      child.space.numPages - stackPages ≤ v / PageSize ∧ v / PageSize < child.space.numPages

/-! ## The size of a program that was loaded -/

section Size

variable {executable : OpenFile} {pageTable : List TranslationEntry} {segment : Segment}
  {m m' : Nat → Byte}

/-- The loop stays in the table. -/
theorem copyPages_lt {n i bytesRead : Nat}
    (h : copyPages executable pageTable segment n i bytesRead m = some m') :
    ∀ j < n, i + j < pageTable.length := by
  induction n generalizing i bytesRead m with
  | zero => simp
  | succ n ih =>
      obtain ⟨entry, hentry, h⟩ := Option.bind_eq_some_iff.mp h
      obtain ⟨m₁, -, h⟩ := Option.bind_eq_some_iff.mp h
      intro j hj
      cases j with
      | zero => exact (List.getElem?_eq_some_iff.mp hentry).1
      | succ j =>
          have := ih h j (by omega)
          omega

/-- The last page of a segment that does not end in the memory is none of it,
also where the address of the end overflows. -/
theorem endPage_large {va size : Nat} (hva : segment.virtualAddr.toInt = va)
    (hsize : segment.size.toInt = size) (hlow : va ≤ MemorySize) (hlarge : MemorySize < va + size) :
    NumPhysPages ≤ endPage segment := by
  have hmax := Int32.toInt_lt segment.size
  simp only [MemorySize, NumPhysPages, PageSize] at *
  by_cases hint : va + size ≤ 2 ^ 31
  · have hlast : (va : Int) + size - 1 = (va + size - 1 : Nat) := by omega
    rw [endPage, hva, hsize, wrap32_of_range (by omega) (by omega), hlast, ← Int.ofNat_tdiv,
      unsigned_natCast (by simp only [PageSize]; omega), PageSize]
    omega
  · -- the end is negative, and an `unsigned` page number large
    have hwrap : wrap32 (va + size - 1) = -(2 ^ 32 - (va + size - 1)) := by
      simp only [wrap32, Int.bmod]
      omega
    rw [endPage, hva, hsize, hwrap, Int.neg_tdiv, Int.tdiv_eq_ediv_of_nonneg (by omega), unsigned,
      PageSize]
    omega

/-- A segment that was loaded ends in the memory. -/
theorem size_le_of_loadSegment (hlength : pageTable.length ≤ NumPhysPages)
    (h : loadSegment executable pageTable segment m = some m') {va size : Nat}
    (hva : 0 < segment.size.toInt → segment.virtualAddr.toInt = va)
    (hsize : segment.size.toInt = size) (hlow : va ≤ MemorySize) : size ≤ MemorySize := by
  by_contra hlarge
  have hpos : 0 < segment.size.toInt := by omega
  have hend := endPage_large (hva hpos) hsize hlow (by omega)
  have hstart : startPage segment ≤ NumPhysPages := by
    have hfits : va < 2 ^ 31 := hlow.trans_lt (by decide)
    rw [startPage_eq (hva hpos) hfits]
    exact Nat.div_le_of_le_mul (by rwa [Nat.mul_comm])
  rw [loadSegment, if_pos hpos] at h
  have hlast := copyPages_lt h (endPage segment - startPage segment) (by omega)
  omega

end Size

/-! ## The spaces of a program -/

variable {noffH : NoffSegments} {S : Nat} {space parent : AddrSpace} {MiMapa : BitMap}
  {machine : Machine} {child : Loaded}

/-- Its pages are those of the segments, and behind them those of the stack. -/
theorem Descends.numPages (h : Descends noffH space) (hcontiguous : noffH.Contiguous S) :
    space.numPages = (S + PageSize - 1) / PageSize + stackPages := by
  induction h with
  | forked _ hfork ih => rw [numPages_ofSpace hfork, ih]
  | @loaded executable MiMapa machine program hread h =>
      have hload := toOption_eq_some.mpr h
      rw [ofExecutable_toOption] at hload
      obtain ⟨haccepted, htable, m, hcode, hdata⟩ := loadExecutable_some hload hread
      have hlength : program.space.pageTable.length = noffH.numPages := by
        rw [htable, length_findPages]
      have hmapped : program.space.pageTable.length ≤ NumPhysPages := by
        rw [hlength]
        exact haccepted.numPages
      have hzero : 0 < noffH.code.size.toInt → noffH.code.virtualAddr.toInt = (0 : Nat) :=
        hcontiguous.code
      have hcodeSize := size_le_of_loadSegment hmapped hcode hzero
        (Int.toNat_of_nonneg hcontiguous.code_nonneg).symm (Nat.zero_le _)
      have hdataSize := size_le_of_loadSegment hmapped hdata
        (fun hpos => (hcontiguous.initData hpos).trans
          (Int.toNat_of_nonneg hcontiguous.code_nonneg).symm)
        (Int.toNat_of_nonneg hcontiguous.initData_nonneg).symm hcodeSize
      have huninit := Int32.toInt_lt noffH.uninitData.size
      have htotal := hcontiguous.total
      have hsmall : S + UserStackSize + PageSize ≤ 2 ^ 32 := by
        simp only [MemorySize, NumPhysPages, PageSize, UserStackSize] at *
        omega
      exact hlength.trans (pagesOf_eq htotal hsmall haccepted.numPages)

theorem Descends.numPages_le (h : Descends noffH space) : space.numPages ≤ NumPhysPages := by
  induction h with
  | forked _ hfork ih => rwa [numPages_ofSpace hfork]
  | @loaded executable MiMapa machine program hread h =>
      have hload := toOption_eq_some.mpr h
      rw [ofExecutable_toOption] at hload
      obtain ⟨haccepted, htable, -⟩ := loadExecutable_some hload hread
      rw [AddrSpace.numPages, htable, length_findPages]
      exact haccepted.numPages

/-- Every page of it can be read and written. -/
theorem Descends.usable (h : Descends noffH space) :
    ∀ entry ∈ space.pageTable, entry.valid = true ∧ entry.readOnly = false := by
  induction h with
  | @loaded executable MiMapa machine program hread h =>
      have hload := toOption_eq_some.mpr h
      rw [ofExecutable_toOption] at hload
      obtain ⟨-, htable, -⟩ := loadExecutable_some hload hread
      rw [htable]
      exact fun entry hentry => ⟨findPages_valid hentry, findPages_readOnly hentry⟩
  | @forked space MiMapa machine child _ hfork ih =>
      rw [(ofSpace_some hfork).2.1]
      intro entry hentry
      rcases List.mem_append.mp hentry with hentry | hentry
      · exact ih entry (List.mem_of_mem_take hentry)
      · exact ⟨findPages_valid hentry, findPages_readOnly hentry⟩

/-! ## A fork -/

/-- The table gives for a byte what the entry of its page says. -/
theorem Translate_of_entry {v p : Nat} {entry : TranslationEntry} {m : Machine}
    (hv : v < 2 ^ 32) (hentry : m.pageTable[v / PageSize]? = some entry)
    (hvalid : entry.valid = true) (hreadOnly : entry.readOnly = false)
    (hpage : entry.physicalPage = p) (hp : p < NumPhysPages) (writing : Bool) :
    m.Translate (BitVec.ofNat 32 v) writing = .ok (p * PageSize + v % PageSize) := by
  have hword : (BitVec.ofNat 32 v).toNat = v := by
    rw [BitVec.toNat_ofNat, Nat.mod_eq_of_lt hv]
  have hrange : 0 ≤ entry.physicalPage ∧ entry.physicalPage < NumPhysPages := by
    rw [hpage]
    exact ⟨Int.natCast_nonneg p, Int.ofNat_lt.mpr hp⟩
  simp only [Machine.Translate, hword, hentry]
  rw [if_neg (by simp [hvalid]), if_neg (by simp [hreadOnly]), if_pos hrange, hpage,
    Int.toNat_natCast]

/-- The pages in front of the stack are the parent's. -/
theorem shares_data (hdescends : Descends noffH parent) (hcontiguous : noffH.Contiguous S)
    (hbits : MiMapa.numBits = NumPhysPages)
    (hmarked : ∀ entry ∈ parent.pageTable, MiMapa.Test entry.physicalPage = some true)
    (hfits : parent.numPages ≤ NumPhysPages) (hfork : ofSpace parent MiMapa machine = .ok child) :
    SharesData S parent child := by
  intro v hv
  have hpages := hdescends.numPages hcontiguous
  have hpage : v / PageSize < parent.numPages - stackPages := by
    rw [hpages]
    simp only [PageSize]
    omega
  have hlt : v / PageSize < parent.pageTable.length := by
    have : parent.numPages = parent.pageTable.length := rfl
    omega
  have hentry : parent.pageTable[v / PageSize]? = some parent.pageTable[v / PageSize] :=
    List.getElem?_eq_getElem hlt
  have hchild : child.space.pageTable[v / PageSize]? = some parent.pageTable[v / PageSize] := by
    have htake : v / PageSize < (parent.pageTable.take (parent.numPages - stackPages)).length := by
      rw [List.length_take]
      omega
    rw [(ofSpace_some hfork).2.1, List.getElem?_append_left htake, List.getElem?_take_of_lt hpage,
      hentry]
  have hmem := List.getElem_mem hlt
  generalize parent.pageTable[v / PageSize] = entry at *
  obtain ⟨hvalid, hreadOnly⟩ := hdescends.usable entry hmem
  have htest := hmarked entry hmem
  rw [BitMap.Test, Option.ite_none_right_eq_some] at htest
  obtain ⟨⟨hlow, hhigh⟩, -⟩ := htest
  obtain ⟨p, hp⟩ := Int.eq_ofNat_of_zero_le hlow
  have hframe : p < NumPhysPages := by omega
  have hword : v < 2 ^ 32 := by
    simp only [NumPhysPages, PageSize] at *
    omega
  exact ⟨p * PageSize + v % PageSize, fun writing =>
    ⟨Translate_of_entry hword hentry hvalid hreadOnly hp hframe writing,
      Translate_of_entry hword hchild hvalid hreadOnly hp hframe writing⟩⟩

/-- The stack is on the first free pages. -/
theorem stackFrames_ofSpace (hfork : ofSpace parent MiMapa machine = .ok child)
    (hfree : stackPages ≤ MiMapa.NumClear) :
    child.space.stackFrames = (frames MiMapa stackPages).map (Nat.cast : Nat → Int) := by
  obtain ⟨hpages, htable, -⟩ := ofSpace_some hfork
  have htake : (parent.pageTable.take (parent.numPages - stackPages)).length =
      parent.numPages - stackPages := by
    rw [List.length_take]
    exact Nat.min_eq_left (Nat.sub_le ..)
  rw [stackFrames, numPages_ofSpace hfork, htable, List.drop_left' htake,
    findPages_physicalPage (by rwa [BitMap.length_clearBits]), frames]

theorem own_stack (hbits : MiMapa.numBits = NumPhysPages)
    (hmarked : ∀ entry ∈ parent.pageTable, MiMapa.Test entry.physicalPage = some true)
    (hpages : stackPages ≤ parent.numPages) (hfree : stackPages ≤ MiMapa.NumClear)
    (hfork : ofSpace parent MiMapa machine = .ok child) : OwnStack parent MiMapa child := by
  have hframes := stackFrames_ofSpace hfork hfree
  have hclear : ∀ p ∈ child.space.stackFrames, MiMapa.Test p = some false := by
    intro p hp
    rw [hframes, List.mem_map] at hp
    obtain ⟨k, hk, rfl⟩ := hp
    obtain ⟨hlt, hbit⟩ := BitMap.mem_clearBits.mp (List.mem_of_mem_take hk)
    have hrange : MiMapa.InRange k := ⟨Int.natCast_nonneg k, Int.ofNat_lt.mpr hlt⟩
    rw [BitMap.Test, if_pos hrange, Int.toNat_natCast, hbit]
  refine ⟨?_, ?_, hclear, ?_, ?_⟩
  · rw [hframes, List.length_map, length_frames hfree]
  · rw [hframes]
    exact (MiMapa.nodup_clearBits.sublist (List.take_sublist ..)).map Nat.cast_injective
  · intro p hp offset hoffset
    rw [hframes, List.mem_map] at hp
    obtain ⟨k, hk, rfl⟩ := hp
    rw [ofSpace_ok hpages hbits hfree] at hfork
    cases hfork
    have hpage : ((k : Int).toNat * PageSize + offset) / PageSize = k := by
      rw [Int.toNat_natCast]
      simp only [PageSize] at *
      omega
    simp only [hpage, hk, if_true]
  · -- the parent's pages are marked, those of the stack were clear
    rintro p hp ⟨entry, hentry, -, rfl⟩
    have htest := hclear _ hp
    rw [hmarked entry hentry] at htest
    cases htest

/-- The registers come after each other, the stack pointer last. -/
theorem starts_on_stack (hlow : stackPages ≤ child.space.numPages)
    (hhigh : child.space.numPages ≤ NumPhysPages) : StartsOnStack child := by
  have hstack := stackPages_eq
  have hsp : ((child.space.InitRegisters child.machine).ReadRegister StackReg).toNat =
      child.space.numPages * PageSize - 16 := by
    show (BitVec.ofInt 32 (child.space.numPages * PageSize - 16)).toNat = _
    rw [BitVec.toNat_ofInt]
    simp only [NumPhysPages, PageSize] at *
    omega
  refine ⟨hsp, fun v hfrom hto => ?_⟩
  rw [hsp] at hfrom hto
  simp only [UserStackSize, PageSize] at *
  omega

/-- **A fork shares the data and none of the stack.** -/
theorem fork_shares (hdescends : Descends noffH parent) (hcontiguous : noffH.Contiguous S)
    (hbits : MiMapa.numBits = NumPhysPages)
    (hmarked : ∀ entry ∈ parent.pageTable, MiMapa.Test entry.physicalPage = some true)
    (hfree : stackPages ≤ MiMapa.NumClear) (machine : Machine) :
    ∃ child, ofSpace parent MiMapa machine = .ok child ∧ SharesData S parent child ∧
      OwnStack parent MiMapa child ∧ StartsOnStack child := by
  have hpages := hdescends.numPages hcontiguous
  have hlow : stackPages ≤ parent.numPages := hpages ▸ Nat.le_add_left ..
  have hhigh := hdescends.numPages_le
  have hfork := ofSpace_ok hlow hbits hfree machine
  refine ⟨_, hfork, shares_data hdescends hcontiguous hbits hmarked hhigh hfork,
    own_stack hbits hmarked hlow hfree hfork, starts_on_stack ?_ ?_⟩
  · rw [numPages_ofSpace hfork]
    exact hlow
  · rw [numPages_ofSpace hfork]
    exact hhigh

/-- Four bytes of code and two of data, and uninitialised data up to the end
of the page. -/
def wholePage : OpenFile where
  bytes := [0xad, 0xdf, 0xba, 0, 0, 0, 0, 0, 40, 0, 0, 0, 4, 0, 0, 0, 4, 0, 0, 0, 44, 0, 0, 0,
    2, 0, 0, 0, 6, 0, 0, 0, 0, 0, 0, 0, 122, 0, 0, 0, 1, 2, 3, 4, 5, 6]
  length_lt := by decide

def wholePageHeader : NoffSegments where
  noffMagic := 0xbadfad
  code := ⟨0, 40, 4⟩
  initData := ⟨4, 44, 2⟩
  uninitData := ⟨6, 0, 122⟩

theorem fork_shares_wholePage :
    ∃ program child, ofExecutable wholePage (.new NumPhysPages) ⟨fun _ => 0, fun _ => 1, []⟩ =
        .ok program ∧
      ofSpace program.space program.MiMapa program.machine = .ok child ∧
      SharesData 128 program.space child ∧ OwnStack program.space program.MiMapa child ∧
      StartsOnStack child := by
  have hrun : (ofExecutable wholePage (.new NumPhysPages) ⟨fun _ => 0, fun _ => 1, []⟩).toOption.map
      (fun program => (program.MiMapa.numBits, program.MiMapa.NumClear,
        program.space.pageTable.all fun entry =>
          program.MiMapa.Test entry.physicalPage == some true)) = some (32, 23, true) := by decide
  obtain ⟨program, hload, hfacts⟩ := Option.map_eq_some_iff.mp hrun
  rw [toOption_eq_some] at hload
  simp only [Prod.mk.injEq, List.all_eq_true, beq_iff_eq] at hfacts
  obtain ⟨hbits, hfree, hmarked⟩ := hfacts
  have hread : NoffSegments.read wholePage = some wholePageHeader := by decide
  have hcontiguous : wholePageHeader.Contiguous 128 :=
    ⟨by decide, by decide, by decide, fun _ => rfl, fun _ => rfl, fun _ => rfl, rfl⟩
  obtain ⟨child, hchild⟩ := fork_shares (.loaded hread hload) hcontiguous hbits hmarked
    (by rw [hfree]; decide) program.machine
  exact ⟨program, child, hload, hchild⟩

end AddrSpace

end DistributedAscii.NachOS
