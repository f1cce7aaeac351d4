import DistributedAscii.NachOS.AddrSpace

/-!
# NachOS — Machine

The simulated MIPS machine as a system call sees it: the registers, the main
memory and the page table of the running thread (`machine/machine.cc`,
`machine/translate.cc`). Memory is read and written byte by byte, so that
there is no alignment; the host is little endian.

An exception inside the kernel goes to `ExceptionHandler`, which ends the
simulation for all but a page fault.
-/

namespace DistributedAscii.NachOS

abbrev Word := BitVec 32
abbrev Byte := BitVec 8

/-- The address `i` bytes behind `addr`. -/
def behind (addr : Word) (i : Nat) : Word :=
  addr + BitVec.ofNat 32 i

@[simp] theorem behind_zero (addr : Word) : behind addr 0 = addr := by
  simp [behind]

theorem behind_succ (addr : Word) (i : Nat) : behind (addr + 1) i = behind addr (i + 1) := by
  rw [behind, behind, BitVec.ofNat_add, BitVec.add_assoc, BitVec.add_comm (BitVec.ofNat 32 i)]
  rfl

def PCReg : Nat := 34
def NextPCReg : Nat := 35
def PrevPCReg : Nat := 36
def LoadReg : Nat := 37
def LoadValueReg : Nat := 38
def BadVAddrReg : Nat := 39

/-- The exceptions of an access to memory. -/
inductive ExceptionType where
  | PageFaultException
  | ReadOnlyException
  | BusErrorException
  | AddressErrorException
deriving DecidableEq, Repr

/-- What ends the simulation with everything in it: `ASSERT`, an access
outside an array, `new` with a negative size. -/
inductive Crash where
  | assertion
  | outOfBounds
  | badAlloc
deriving DecidableEq, Repr

structure Machine where
  registers : Nat → Word
  mainMemory : Nat → Byte
  pageTable : List TranslationEntry

namespace Machine

/-- The numbers are constants below `NumTotalRegs`, so that the assertion of
the two register functions holds. -/
def ReadRegister (m : Machine) (num : Nat) : Word :=
  m.registers num

def WriteRegister (m : Machine) (num : Nat) (value : Word) : Machine :=
  { m with registers := fun r => if r = num then value else m.registers r }

def DelayedLoad (m : Machine) (nextReg nextValue : Word) : Machine :=
  let m := m.WriteRegister (m.ReadRegister LoadReg).toNat (m.ReadRegister LoadValueReg)
  let m := m.WriteRegister LoadReg nextReg
  let m := m.WriteRegister LoadValueReg nextValue
  m.WriteRegister 0 0

/-- The physical address of a byte. -/
def Translate (m : Machine) (virtAddr : Word) (writing : Bool) : Except ExceptionType Nat :=
  let vpn := virtAddr.toNat / PageSize
  let offset := virtAddr.toNat % PageSize
  match m.pageTable[vpn]? with
  | none => .error .AddressErrorException
  | some entry =>
      if entry.valid = false then .error .PageFaultException
      else if entry.readOnly && writing then .error .ReadOnlyException
      else if 0 ≤ entry.physicalPage ∧ entry.physicalPage < NumPhysPages then
        .ok (entry.physicalPage.toNat * PageSize + offset)
      else .error .BusErrorException

/-- `ExceptionHandler` on an exception of a memory access. -/
def ExceptionHandler : ExceptionType → Except Crash Unit
  | .PageFaultException => .ok ()
  | _ => .error .assertion

/-- What `RaiseException` does in front of the handler. -/
def raise (m : Machine) (badVAddr : Word) : Machine :=
  (m.WriteRegister BadVAddrReg badVAddr).DelayedLoad 0 0

def RaiseException (m : Machine) (which : ExceptionType) (badVAddr : Word) :
    Except Crash Machine :=
  (ExceptionHandler which).map fun _ => m.raise badVAddr

/-- `ReadMem(addr, 1, &c)`; `none` where it returns false. The memory is an
array of `char`. -/
def ReadMem (m : Machine) (addr : Word) : Except Crash (Machine × Option Word) :=
  match m.Translate addr false with
  | .error which => (m.RaiseException which addr).map (·, none)
  | .ok physicalAddress => .ok (m, some ((m.mainMemory physicalAddress).signExtend 32))

/-- `WriteMem(addr, 1, value)`. -/
def WriteMem (m : Machine) (addr : Word) (value : Byte) : Except Crash (Machine × Bool) :=
  match m.Translate addr true with
  | .error which => (m.RaiseException which addr).map (·, false)
  | .ok physicalAddress =>
      .ok ({ m with mainMemory := fun p => if p = physicalAddress then value
                                           else m.mainMemory p }, true)

@[simp] theorem ReadRegister_WriteRegister (m : Machine) (num : Nat) (value : Word) (r : Nat) :
    (m.WriteRegister num value).ReadRegister r = if r = num then value else m.ReadRegister r := rfl

/-! ## What an access leaves alone -/

/-- No load is pending, and the program counters, the page table and the
arguments of the call are as they were. -/
structure Keeps (m m' : Machine) : Prop where
  registers : ∀ r, r ≠ BadVAddrReg → r ≠ 0 → r ≠ LoadValueReg →
    m'.ReadRegister r = m.ReadRegister r
  pageTable : m'.pageTable = m.pageTable

theorem Keeps.refl (m : Machine) : Keeps m m :=
  ⟨fun _ _ _ _ => rfl, rfl⟩

theorem Keeps.trans {m m' m'' : Machine} (h : Keeps m m') (h' : Keeps m' m'') : Keeps m m'' :=
  ⟨fun r hb h0 hv => (h'.registers r hb h0 hv).trans (h.registers r hb h0 hv),
    h'.pageTable.trans h.pageTable⟩

theorem Keeps.loadReg {m m' : Machine} (h : Keeps m m') (hload : m.ReadRegister LoadReg = 0) :
    m'.ReadRegister LoadReg = 0 :=
  (h.registers LoadReg (by decide) (by decide) (by decide)).trans hload

/-- After the trap no load is pending. -/
theorem loadReg_raise (m : Machine) (badVAddr : Word) :
    (m.raise badVAddr).ReadRegister LoadReg = 0 := by
  simp [raise, DelayedLoad, LoadReg, LoadValueReg]

theorem keeps_raise {m : Machine} (hload : m.ReadRegister LoadReg = 0) (badVAddr : Word) :
    Keeps m (m.raise badVAddr) := by
  refine ⟨fun r hb h0 hv => ?_, rfl⟩
  have hload' : (m.WriteRegister BadVAddrReg badVAddr).ReadRegister LoadReg = 0 := by
    simp [BadVAddrReg, LoadReg, ← hload]
  by_cases hr : r = LoadReg
  · rw [hr, loadReg_raise, hload]
  · simp [raise, DelayedLoad, hload', hb, h0, hv, hr]

/-- An exception that comes back is a page fault. -/
theorem RaiseException_ok {m m' : Machine} {which : ExceptionType} {badVAddr : Word}
    (h : m.RaiseException which badVAddr = .ok m') :
    which = .PageFaultException ∧ m' = m.raise badVAddr := by
  cases which <;> simp [RaiseException, ExceptionHandler, Except.map] at h ⊢
  exact h.symm

theorem map_RaiseException_ok {m : Machine} {which : ExceptionType} {badVAddr : Word}
    {α : Type} {f : Machine → α} {r : α}
    (h : (m.RaiseException which badVAddr).map f = .ok r) :
    which = .PageFaultException ∧ r = f (m.raise badVAddr) := by
  cases hraise : m.RaiseException which badVAddr with
  | error => simp [hraise, Except.map] at h
  | ok raised =>
      rw [hraise] at h
      obtain ⟨hwhich, rfl⟩ := RaiseException_ok hraise
      exact ⟨hwhich, (Except.ok.inj h).symm⟩

/-- The page of an address has an entry, and that entry is not valid. -/
def OnInvalidPage (m : Machine) (addr : Word) : Prop :=
  ∃ entry, m.pageTable[addr.toNat / PageSize]? = some entry ∧ entry.valid = false

/-- The byte at `addr` is on a valid page of the thread. -/
def Inside (m : Machine) (addr : Word) (writing : Bool) : Prop :=
  ∃ p, m.Translate addr writing = .ok p

theorem Translate_pageFault {m : Machine} {addr : Word} {writing : Bool} :
    m.Translate addr writing = .error .PageFaultException ↔ m.OnInvalidPage addr := by
  simp only [Translate, OnInvalidPage]
  cases m.pageTable[addr.toNat / PageSize]? with
  | none => simp
  | some entry =>
      cases hvalid : entry.valid with
      | false => simp [hvalid]
      | true =>
          simp only [Option.some.injEq, exists_eq_left', hvalid, Bool.true_eq_false, iff_false,
            if_false]
          split <;> [skip; split] <;> simp

/-- The byte of main memory behind a virtual address. -/
def byteAt (m : Machine) (addr : Word) : Option Byte :=
  (m.Translate addr false).toOption.map m.mainMemory

/-- A read: the byte, or a page fault. -/
theorem ReadMem_cases {m m' : Machine} {addr : Word} {value : Option Word}
    (h : m.ReadMem addr = .ok (m', value)) :
    (m' = m ∧ ∃ c, m.byteAt addr = some c ∧ value = some (c.signExtend 32)) ∨
      (m' = m.raise addr ∧ value = none ∧ m.OnInvalidPage addr) := by
  simp only [ReadMem] at h
  cases htranslate : m.Translate addr false with
  | ok p =>
      rw [htranslate] at h
      cases h
      exact .inl ⟨rfl, _, by simp [byteAt, htranslate, Except.toOption], rfl⟩
  | error which =>
      rw [htranslate] at h
      obtain ⟨rfl, hresult⟩ := map_RaiseException_ok h
      obtain ⟨rfl, rfl⟩ := Prod.mk.inj hresult
      exact .inr ⟨rfl, rfl, Translate_pageFault.mp htranslate⟩

theorem ReadMem_keeps {m m' : Machine} {addr : Word} {value : Option Word}
    (hload : m.ReadRegister LoadReg = 0) (h : m.ReadMem addr = .ok (m', value)) : Keeps m m' := by
  obtain ⟨rfl, -⟩ | ⟨rfl, -⟩ := ReadMem_cases h
  · exact .refl _
  · exact keeps_raise hload addr

theorem ReadMem_of_byteAt {m : Machine} {addr : Word} {c : Byte} (h : m.byteAt addr = some c) :
    m.ReadMem addr = .ok (m, some (c.signExtend 32)) := by
  simp only [byteAt, Option.map_eq_some_iff] at h
  obtain ⟨p, hp, rfl⟩ := h
  cases htranslate : m.Translate addr false with
  | error => simp [htranslate, Except.toOption] at hp
  | ok q =>
      simp only [htranslate, Except.toOption, Option.some.injEq] at hp
      simp [ReadMem, htranslate, hp]

theorem Inside.byteAt {m : Machine} {addr : Word} (h : m.Inside addr false) :
    ∃ c, m.byteAt addr = some c := by
  obtain ⟨p, hp⟩ := h
  exact ⟨m.mainMemory p, by simp [Machine.byteAt, hp, Except.toOption]⟩

/-- A write: the byte is stored, or a page fault. -/
theorem WriteMem_cases {m m' : Machine} {addr : Word} {value : Byte} {stored : Bool}
    (h : m.WriteMem addr value = .ok (m', stored)) :
    (stored = true ∧ ¬m.OnInvalidPage addr ∧ m'.registers = m.registers ∧
        m'.pageTable = m.pageTable) ∨
      (stored = false ∧ m.OnInvalidPage addr ∧ m' = m.raise addr) := by
  simp only [WriteMem] at h
  cases htranslate : m.Translate addr true with
  | ok p =>
      rw [htranslate] at h
      cases h
      refine .inl ⟨rfl, fun hinvalid => ?_, rfl, rfl⟩
      rw [Translate_pageFault.mpr hinvalid] at htranslate
      cases htranslate
  | error which =>
      rw [htranslate] at h
      obtain ⟨rfl, hresult⟩ := map_RaiseException_ok h
      obtain ⟨rfl, rfl⟩ := Prod.mk.inj hresult
      exact .inr ⟨rfl, Translate_pageFault.mp htranslate, rfl⟩

theorem WriteMem_keeps {m m' : Machine} {addr : Word} {value : Byte} {stored : Bool}
    (hload : m.ReadRegister LoadReg = 0) (h : m.WriteMem addr value = .ok (m', stored)) :
    Keeps m m' := by
  obtain ⟨-, -, hregisters, htable⟩ | ⟨-, -, rfl⟩ := WriteMem_cases h
  · exact ⟨fun r _ _ _ => congrFun hregisters r, htable⟩
  · exact keeps_raise hload addr

theorem Translate_congr {m m' : Machine} (h : m'.pageTable = m.pageTable) (addr : Word)
    (writing : Bool) : m'.Translate addr writing = m.Translate addr writing := by
  rw [Translate, Translate, h]

/-- A byte that may be written may be read. -/
theorem Translate_read {m : Machine} {addr : Word} {p : Nat}
    (h : m.Translate addr true = .ok p) : m.Translate addr false = .ok p := by
  rw [Translate] at h ⊢
  cases hentry : m.pageTable[addr.toNat / PageSize]? with
  | none =>
      rw [hentry] at h
      cases h
  | some entry =>
      simp only [hentry, Bool.and_true, Bool.and_false, Bool.false_eq_true, if_false] at h ⊢
      split at h
      · cases h
      · rename_i hvalid
        split at h
        · cases h
        · rwa [if_neg hvalid]

theorem byteAt_of_Translate {m : Machine} {addr : Word} {p : Nat}
    (h : m.Translate addr true = .ok p) : m.byteAt addr = some (m.mainMemory p) := by
  rw [byteAt, Translate_read h]
  rfl

/-- A write inside: the byte is in its place, and nothing else has changed. -/
theorem Inside.WriteMem {m : Machine} {addr : Word} (h : m.Inside addr true) (value : Byte) :
    ∃ m' p, m.Translate addr true = .ok p ∧ m.WriteMem addr value = .ok (m', true) ∧
      m'.registers = m.registers ∧ m'.pageTable = m.pageTable ∧
      m'.mainMemory = Function.update m.mainMemory p value := by
  obtain ⟨p, hp⟩ := h
  refine ⟨{ m with mainMemory := Function.update m.mainMemory p value }, p, hp, ?_, rfl, rfl, rfl⟩
  simp only [Machine.WriteMem, hp]
  congr
  funext q
  simp only [Function.update, eq_rec_constant, dite_eq_ite]

end Machine

end DistributedAscii.NachOS
