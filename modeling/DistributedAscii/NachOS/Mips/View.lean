import DistributedAscii.Lib.Bits
import DistributedAscii.Lib.Mips
import DistributedAscii.NachOS.Mips.OneInstruction

/-!
# NachOS — the machine that a user program sees

Registers and a flat memory: `view` reads the memory through the page table.
With a page table that gives no frame to two pages, an access to memory is
one to the flat memory (`ReadMem_word`, `WriteMem_view`).
-/

namespace DistributedAscii.NachOS.Mips

open Lib.Mips (State Access Trap Reg)

/-- No two valid pages have one frame. -/
def Distinct (m : Machine) : Prop :=
  ∀ i j : Nat, ∀ entry entry' : TranslationEntry, m.pageTable[i]? = some entry →
    m.pageTable[j]? = some entry' → entry.valid = true → entry'.valid = true →
    entry.physicalPage = entry'.physicalPage → i = j

/-- Which accesses fault. -/
def access (m : Machine) : Access ExceptionType where
  fault addr writing :=
    match m.Translate addr writing with
    | .ok _ => none
    | .error which => some which
  unaligned := .AddressErrorException

def view (m : Machine) : State where
  gpr r := if r = 0 then 0 else m.registers r.toNat
  hi := m.registers HiReg
  lo := m.registers LoReg
  pc := m.registers PCReg
  npc := m.registers NextPCReg
  pending := (BitVec.ofNat 5 (m.registers LoadReg).toNat, m.registers LoadValueReg)
  mem addr :=
    match m.Translate addr false with
    | .ok p => m.mainMemory p
    | .error _ => 0

/-- What holds between two instructions. -/
structure Proper (m : Machine) : Prop where
  zero : m.registers 0 = 0
  load : (m.registers LoadReg).toNat < 32
  distinct : Distinct m

/-! ## Translation -/

section Translate

variable {m : Machine} {addr : Word} {writing : Bool} {p q : Nat}

/-- The entry behind a translation. -/
theorem Translate_ok (h : m.Translate addr writing = .ok p) :
    ∃ entry, m.pageTable[addr.toNat / PageSize]? = some entry ∧ entry.valid = true ∧
      0 ≤ entry.physicalPage ∧ entry.physicalPage < NumPhysPages ∧
      p = entry.physicalPage.toNat * PageSize + addr.toNat % PageSize := by
  simp only [Machine.Translate] at h
  split at h
  · cases h
  · rename_i entry hentry
    split at h
    · cases h
    · split at h
      · cases h
      · split at h
        · rename_i hvalid _ hframe
          cases h
          exact ⟨entry, hentry, by simpa using hvalid, hframe.1, hframe.2, rfl⟩
        · cases h

/-- What may be written may be read. -/
theorem Translate_read (h : m.Translate addr true = .ok p) : m.Translate addr false = .ok p := by
  simp only [Machine.Translate, Bool.and_true, Bool.and_false] at h ⊢
  split at h
  · cases h
  · split at h
    · cases h
    · split at h
      · cases h
      · rename_i hvalid _
        rw [if_neg hvalid, if_neg (by simp)]
        exact h

/-- An aligned access stays on its page. -/
theorem aligned_room {a size : Nat} (haligned : a % size = 0) (hsize : size ∣ PageSize) :
    a % PageSize + size ≤ PageSize := by
  obtain ⟨k, hk⟩ := hsize
  have hmod : a % PageSize % size = 0 := by
    rw [hk, Nat.mod_mul_right_mod, haligned]
  have hborder := Nat.mod_lt a (show 0 < PageSize by decide)
  obtain ⟨q, hq⟩ := Nat.dvd_of_mod_eq_zero hmod
  have hqk : q < k := by
    rw [hq, hk] at hborder
    exact Nat.lt_of_mul_lt_mul_left hborder
  have hnext := Nat.mul_le_mul_left size hqk
  rw [Nat.mul_succ, ← hq, ← hk] at hnext
  exact hnext

/-- A few bytes further on, on the same page. -/
theorem Translate_add {size i : Nat} (h : m.Translate addr false = .ok p)
    (haligned : addr.toNat % size = 0) (hsize : size ∣ PageSize) (hi : i < size) :
    m.Translate (addr + BitVec.ofNat 32 i) false = .ok (p + i) := by
  have hroom := aligned_room haligned hsize
  have hlt := addr.isLt
  have hsum : (addr + BitVec.ofNat 32 i).toNat = addr.toNat + i := by
    rw [BitVec.toNat_add, BitVec.toNat_ofNat]
    simp only [PageSize] at hroom
    omega
  have hdiv : (addr.toNat + i) / PageSize = addr.toNat / PageSize := by
    simp only [PageSize] at hroom ⊢
    omega
  have hmod : (addr.toNat + i) % PageSize = addr.toNat % PageSize + i := by
    simp only [PageSize] at hroom ⊢
    omega
  simp only [Machine.Translate, hsum, hdiv, hmod] at h ⊢
  split at h
  · cases h
  · split at h
    · cases h
    · split at h
      · cases h
      · split at h
        · cases h
          rename_i hvalid hreadOnly hframe
          rw [if_neg hvalid, if_neg hreadOnly, if_pos hframe, Nat.add_assoc]
        · cases h

/-- Different addresses are in different places. -/
theorem Distinct.translate_inj (hdistinct : Distinct m) {addr' : Word}
    (h : m.Translate addr false = .ok p) (h' : m.Translate addr' false = .ok p) : addr = addr' := by
  obtain ⟨entry, hentry, hvalid, h0, -, hp⟩ := Translate_ok h
  obtain ⟨entry', hentry', hvalid', h0', -, hp'⟩ := Translate_ok h'
  simp only [PageSize] at hp hp' hentry hentry'
  have hframe : entry.physicalPage = entry'.physicalPage := by omega
  have hvpn := hdistinct _ _ _ _ hentry hentry' hvalid hvalid' hframe
  apply BitVec.eq_of_toNat_eq
  omega

theorem Translate_lt (h : m.Translate addr writing = .ok p) {size : Nat}
    (haligned : addr.toNat % size = 0) (hsize : size ∣ PageSize) : p + size ≤ MemorySize := by
  obtain ⟨entry, -, -, h0, hframe, rfl⟩ := Translate_ok h
  have hroom := aligned_room haligned hsize
  have hframes : entry.physicalPage.toNat + 1 ≤ NumPhysPages := by omega
  have hall := Nat.mul_le_mul_right PageSize hframes
  rw [Nat.succ_mul] at hall
  rw [MemorySize]
  omega

end Translate

/-! ## Accesses -/

/-- The exception that a trap is. -/
def stopOf (m : Machine) : Trap ExceptionType → Stop
  | .memory cause addr => .raise m (.access cause) addr
  | .overflow => .raise m .OverflowException 0
  | .reserved => .raise m .IllegalInstrException 0
  | .syscall => .raise m .SyscallException 0

section Access

variable {m : Machine} {addr : Word} {size : Nat} {writing : Bool} {t : Trap ExceptionType}

theorem and_three_ne_zero {x : Word} : x &&& 0x3 ≠ 0 ↔ x.toNat % 4 ≠ 0 := by
  have hmask : (x &&& 0x3).toNat = x.toNat % 2 ^ 2 := Lib.Bits.toNat_and_mask (k := 2) (by decide)
  rw [Ne, ← BitVec.toNat_inj, hmask]
  simp

theorem and_one_ne_zero' {x : Word} : x &&& 0x1 ≠ 0 ↔ x.toNat % 2 ≠ 0 := by
  have hmask : (x &&& 0x1).toNat = x.toNat % 2 ^ 1 := Lib.Bits.toNat_and_mask (k := 1) (by decide)
  rw [Ne, ← BitVec.toNat_inj, hmask]
  simp

/-- The sizes of an access. -/
def IsSize (size : Nat) : Prop :=
  size = 1 ∨ size = 2 ∨ size = 4

theorem IsSize.dvd (h : IsSize size) : size ∣ PageSize := by
  rcases h with rfl | rfl | rfl <;> decide

theorem IsSize.aligned (h : IsSize size) :
    (size = 4 ∧ addr &&& 0x3 ≠ 0 ∨ size = 2 ∧ addr &&& 0x1 ≠ 0) ↔ addr.toNat % size ≠ 0 := by
  rw [and_three_ne_zero, and_one_ne_zero']
  rcases h with rfl | rfl | rfl <;> simp [Nat.mod_one]

theorem Translate_fault (hsize : IsSize size)
    (h : State.faultAt (access m) addr size writing = some t) :
    Translate m addr size writing = .error (stopOf m t) := by
  rw [State.faultAt] at h
  rw [Translate]
  split at h
  case isTrue haligned =>
    cases h
    rw [if_pos (hsize.aligned.mpr haligned)]
    rfl
  case isFalse haligned =>
    rw [if_neg (hsize.aligned.not.mpr haligned)]
    simp only [access] at h
    split at h
    · cases h
    · rename_i which hwhich
      cases h
      rw [hwhich]
      rfl

theorem Translate_noFault (hsize : IsSize size)
    (h : State.faultAt (access m) addr size writing = none) :
    ∃ p, Translate m addr size writing = .ok p ∧ m.Translate addr writing = .ok p ∧
      addr.toNat % size = 0 := by
  rw [State.faultAt] at h
  split at h
  case isTrue => cases h
  case isFalse haligned =>
    simp only [access] at h
    split at h
    · rename_i p hp
      have haligned : addr.toNat % size = 0 := not_not.mp haligned
      refine ⟨p, ?_, hp, haligned⟩
      rw [Translate, if_neg (hsize.aligned.not.mpr (not_not.mpr haligned)), hp]
      exact if_pos (Translate_lt hp haligned hsize.dvd)
    · cases h

/-- A byte of the flat memory. -/
theorem view_mem {p : Nat} (h : m.Translate addr false = .ok p) :
    (view m).mem addr = m.mainMemory p := by
  simp only [view, h]

theorem ReadMem_fault (hsize : IsSize size)
    (h : State.faultAt (access m) addr size false = some t) :
    ReadMem m addr size = .error (stopOf m t) := by
  rw [ReadMem, Translate_fault hsize h]
  rfl

/-- **A read** is one of the flat memory. -/
theorem ReadMem_noFault (hsize : IsSize size)
    (h : State.faultAt (access m) addr size false = none) :
    ∃ p, Translate m addr size false = .ok p ∧
      ∀ i < size, m.mainMemory (p + i) = (view m).mem (addr + BitVec.ofNat 32 i) := by
  obtain ⟨p, htranslate, hp, haligned⟩ := Translate_noFault hsize h
  exact ⟨p, htranslate, fun i hi => (view_mem (Translate_add hp haligned hsize.dvd hi)).symm⟩

theorem ReadMem_byte (h : State.faultAt (access m) addr 1 false = none) :
    ReadMem m addr 1 = .ok (((view m).mem addr).signExtend 32) := by
  obtain ⟨p, htranslate, hbytes⟩ := ReadMem_noFault (.inl rfl) h
  have h0 := hbytes 0 (by decide)
  rw [BitVec.add_zero] at h0
  rw [ReadMem, htranslate, ← h0]
  rfl

theorem ofBytes_zero (b₀ b₁ : Byte) :
    Lib.Words.ofBytes b₀ b₁ 0 0 = (b₁ ++ b₀ : BitVec 16).setWidth 32 := by
  refine BitVec.eq_of_getLsbD_eq fun i hi => ?_
  rw [Lib.Words.getLsbD_ofBytes, BitVec.getLsbD_setWidth]
  have happend : (b₁ ++ b₀ : BitVec (8 + 8)).getLsbD i
      = if i < 8 then b₀.getLsbD i else b₁.getLsbD (i - 8) := by
    rw [BitVec.getLsbD_append]
  have happend : (b₁ ++ b₀ : BitVec 16).getLsbD i
      = if i < 8 then b₀.getLsbD i else b₁.getLsbD (i - 8) := happend
  rw [happend]
  by_cases h8 : i < 8
  · simp [h8, hi]
  · by_cases h16 : i - 8 < 8
    · simp [h8, h16, hi]
    · simp [h8, h16, hi, BitVec.getLsbD_of_ge b₁ (i - 8) (by omega)]

theorem ReadMem_half (h : State.faultAt (access m) addr 2 false = none) :
    ReadMem m addr 2 = .ok (((view m).half addr).setWidth 32) := by
  obtain ⟨p, htranslate, hbytes⟩ := ReadMem_noFault (.inr (.inl rfl)) h
  have h0 := hbytes 0 (by decide)
  rw [BitVec.add_zero] at h0
  have h1 : m.mainMemory (p + 1) = (view m).mem (addr + 1) := hbytes 1 (by decide)
  rw [ReadMem, htranslate, State.half, ← h0, ← h1, ← ofBytes_zero]
  rfl

theorem ReadMem_word (h : State.faultAt (access m) addr 4 false = none) :
    ReadMem m addr 4 = .ok ((view m).word addr) := by
  obtain ⟨p, htranslate, hbytes⟩ := ReadMem_noFault (.inr (.inr rfl)) h
  have h0 := hbytes 0 (by decide)
  rw [BitVec.add_zero] at h0
  have h1 : m.mainMemory (p + 1) = (view m).mem (addr + 1) := hbytes 1 (by decide)
  have h2 : m.mainMemory (p + 2) = (view m).mem (addr + 2) := hbytes 2 (by decide)
  have h3 : m.mainMemory (p + 3) = (view m).mem (addr + 3) := hbytes 3 (by decide)
  rw [ReadMem, htranslate, State.word, ← h0, ← h1, ← h2, ← h3]
  rfl

theorem WriteMem_fault (hsize : IsSize size)
    (h : State.faultAt (access m) addr size true = some t) (value : Word) :
    WriteMem m addr size value = .error (stopOf m t) := by
  rw [WriteMem, Translate_fault hsize h]
  rfl

/-- **A write** is one to the flat memory, and nothing else changes. -/
theorem WriteMem_noFault (hdistinct : Distinct m) (hsize : IsSize size)
    (h : State.faultAt (access m) addr size true = none) (value : Word) :
    ∃ m', WriteMem m addr size value = .ok m' ∧ m'.registers = m.registers ∧
      m'.pageTable = m.pageTable ∧
      (view m').mem = fun a =>
        if (a - addr).toNat < size then (Lib.Words.bytesOf value).getD (a - addr).toNat 0
        else (view m).mem a := by
  obtain ⟨p, htranslate, hp, haligned⟩ := Translate_noFault hsize h
  have hp := Translate_read hp
  have hwrite : WriteMem m addr size value = .ok { m with
      mainMemory := fun q =>
        if p ≤ q ∧ q < p + size then (Lib.Words.bytesOf value).getD (q - p) 0
        else m.mainMemory q } := by
    rw [WriteMem, htranslate]
    exact if_pos hsize
  refine ⟨_, hwrite, rfl, rfl, funext fun a => ?_⟩
  have hinside : (a - addr).toNat < size →
      m.Translate a false = .ok (p + (a - addr).toNat) := by
    intro hi
    have hat := Translate_add hp haligned hsize.dvd hi
    rwa [BitVec.ofNat_toNat, BitVec.setWidth_eq, BitVec.add_comm, BitVec.sub_add_cancel] at hat
  have hview : (view { m with
      mainMemory := fun q =>
        if p ≤ q ∧ q < p + size then (Lib.Words.bytesOf value).getD (q - p) 0
        else m.mainMemory q }).mem a =
      match m.Translate a false with
      | .ok q =>
          if p ≤ q ∧ q < p + size then (Lib.Words.bytesOf value).getD (q - p) 0
          else m.mainMemory q
      | .error _ => 0 := rfl
  rw [hview]
  by_cases hi : (a - addr).toNat < size
  · rw [hinside hi, if_pos hi]
    simp only [Nat.le_add_right, Nat.add_lt_add_left hi, and_self, if_true, Nat.add_sub_cancel_left]
  · rw [if_neg hi]
    cases hq : m.Translate a false with
    | error which => simp only [view, hq]
    | ok q =>
        simp only [view, hq]
        refine if_neg ?_
        intro hin
        -- the place belongs to another address
        have hat := Translate_add hp haligned hsize.dvd (show q - p < size by omega)
        rw [Nat.add_sub_cancel' hin.1] at hat
        have haddr := hdistinct.translate_inj hq hat
        have hle : size ≤ 4 := by rcases hsize with rfl | rfl | rfl <;> decide
        rw [haddr, BitVec.add_comm, BitVec.add_sub_cancel, BitVec.toNat_ofNat] at hi
        omega

end Access

end DistributedAscii.NachOS.Mips
