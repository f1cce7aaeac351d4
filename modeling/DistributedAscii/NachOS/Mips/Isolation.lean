import DistributedAscii.NachOS.Mips.View

/-!
# NachOS — what a user program has nothing to do with

The frames of a page table are all of main memory that an instruction reads
or writes: on a machine with other bytes in the other frames it does the
same, and leaves them there (`OneInstruction_besides`). An exception is
raised by the machine as the instruction found it (`precise_OneInstruction`).
-/

namespace DistributedAscii.NachOS.Mips

/-- The byte is in a frame of the page table. -/
def Owns (pageTable : List TranslationEntry) (p : Nat) : Prop :=
  ∃ entry ∈ pageTable, entry.valid = true ∧ entry.physicalPage = ((p / PageSize : Nat) : Int)

instance (pageTable : List TranslationEntry) (p : Nat) : Decidable (Owns pageTable p) :=
  inferInstanceAs (Decidable (∃ entry ∈ pageTable, _))

/-- The machine with other bytes in the frames that the page table does not
have. -/
def besides (others : Nat → Byte) (m : Machine) : Machine :=
  { m with mainMemory := fun p => if Owns m.pageTable p then m.mainMemory p else others p }

def Stop.besides (others : Nat → Byte) : Stop → Stop
  | .raise m which badVAddr => .raise (Mips.besides others m) which badVAddr
  | .abort => .abort

def Effect.besides (others : Nat → Byte) (e : Effect) : Effect :=
  { e with machine := Mips.besides others e.machine }

/-- The outcome on the machine with the other bytes. -/
def lift {α : Type} (others : Nat → Byte) (f : α → α) : Except Stop α → Except Stop α
  | .ok a => .ok (f a)
  | .error stop => .error (stop.besides others)

variable {m : Machine} {others : Nat → Byte}

theorem lift_ite {α : Type} {f : α → α} {c : Prop} [Decidable c] (x y : Except Stop α) :
    lift others f (if c then x else y) = if c then lift others f x else lift others f y := by
  split <;> rfl

theorem lift_bind {α β : Type} {f : α → α} {g : β → β} {k k' : α → Except Stop β}
    (x : Except Stop α) (hk : ∀ a, k (f a) = lift others g (k' a)) :
    lift others f x >>= k = lift others g (x >>= k') := by
  cases x with
  | ok a => exact hk a
  | error => rfl

theorem lift_map {α β : Type} {f : α → α} {g : β → β} {k k' : α → β} (x : Except Stop α)
    (hk : ∀ a, k (f a) = g (k' a)) :
    (lift others f x).map k = lift others g (x.map k') := by
  cases x with
  | ok a => exact congrArg Except.ok (hk a)
  | error => rfl

@[simp] theorem besides_ReadRegister (r : Nat) :
    (besides others m).ReadRegister r = m.ReadRegister r := rfl

@[simp] theorem besides_pageTable : (besides others m).pageTable = m.pageTable := rfl

theorem besides_mainMemory (p : Nat) :
    (besides others m).mainMemory p = if Owns m.pageTable p then m.mainMemory p else others p := rfl

theorem besides_WriteRegister (r : Nat) (value : Word) :
    (besides others m).WriteRegister r value = besides others (m.WriteRegister r value) := rfl

/-! ## Accesses to memory -/

section Access

variable {addr : Word} {size : Nat} {writing : Bool} {p : Nat}

/-- A translated access is to a frame of the table. -/
theorem owns_of_Translate (h : Translate m addr size writing = .ok p) (hsize : IsSize size)
    {i : Nat} (hi : i < size) : Owns m.pageTable (p + i) := by
  rw [Translate] at h
  split at h
  case isTrue => cases h
  case isFalse hunaligned =>
    have haligned : addr.toNat % size = 0 := not_not.mp (hsize.aligned.not.mp hunaligned)
    split at h
    · cases h
    · rename_i q hq
      split at h
      · cases h
        obtain ⟨entry, hentry, hvalid, h0, -, rfl⟩ := Translate_ok hq
        refine ⟨entry, List.mem_of_getElem? hentry, hvalid, ?_⟩
        have hroom := aligned_room haligned hsize.dvd
        simp only [PageSize] at hroom ⊢
        omega
      · cases h

theorem Translate_besides : Translate (besides others m) addr size writing
    = lift others id (Translate m addr size writing) := by
  have htranslate : (besides others m).Translate addr writing = m.Translate addr writing := rfl
  rw [Translate, Translate, htranslate]
  split
  · rfl
  · split
    · rfl
    · split <;> rfl

theorem ReadMem_besides (hsize : IsSize size) :
    ReadMem (besides others m) addr size = lift others id (ReadMem m addr size) := by
  rw [ReadMem, ReadMem, Translate_besides]
  cases htranslate : Translate m addr size false with
  | error => rfl
  | ok p =>
      have hbyte : ∀ i < size, (besides others m).mainMemory (p + i) = m.mainMemory (p + i) :=
        fun i hi => if_pos (owns_of_Translate htranslate hsize hi)
      rcases hsize with rfl | rfl | rfl
      · exact congrArg (fun b => Except.ok (b.signExtend 32)) (hbyte 0 (by decide))
      · have h0 := hbyte 0 (by decide)
        have h1 := hbyte 1 (by decide)
        exact congrArg₂ (fun b₀ b₁ => Except.ok (Lib.Words.ofBytes b₀ b₁ 0 0)) h0 h1
      · have h0 := hbyte 0 (by decide)
        have h1 := hbyte 1 (by decide)
        have h2 := hbyte 2 (by decide)
        have h3 := hbyte 3 (by decide)
        simp only [lift, id, bind, Except.bind, h0, h1, h2, h3]

theorem WriteMem_besides (hsize : IsSize size) (value : Word) :
    WriteMem (besides others m) addr size value
      = lift others (besides others) (WriteMem m addr size value) := by
  rw [WriteMem, WriteMem, Translate_besides]
  cases htranslate : Translate m addr size true with
  | error => rfl
  | ok p =>
      have howns : ∀ q, p ≤ q → q < p + size → Owns m.pageTable q := by
        intro q hp hq
        have hat := owns_of_Translate htranslate hsize (show q - p < size by omega)
        rwa [Nat.add_sub_cancel' hp] at hat
      have hmemory : (fun q =>
            if p ≤ q ∧ q < p + size then (Lib.Words.bytesOf value).getD (q - p) 0
            else (besides others m).mainMemory q) = fun q =>
          if Owns m.pageTable q then
            if p ≤ q ∧ q < p + size then (Lib.Words.bytesOf value).getD (q - p) 0
            else m.mainMemory q
          else others q := by
        funext q
        rw [besides_mainMemory]
        by_cases hin : p ≤ q ∧ q < p + size
        · rw [if_pos hin, if_pos (howns q hin.1 hin.2), if_pos hin]
        · rw [if_neg hin, if_neg hin]
      refine Eq.trans (if_pos hsize) (Eq.symm ?_)
      refine (congrArg (lift others (besides others)) (if_pos hsize)).trans ?_
      exact congrArg (fun memory => Except.ok { m with mainMemory := memory }) hmemory.symm

end Access

/-! ## Instructions -/

theorem loadUnaligned_besides (instr : Instruction) (addr : Word) (merge : Word → Word → Word) :
    loadUnaligned (besides others m) instr addr merge
      = lift others id (loadUnaligned m instr addr merge) := by
  rw [loadUnaligned, loadUnaligned]
  split
  · rfl
  · rw [ReadMem_besides (.inr (.inr rfl))]
    exact lift_bind _ fun _ => rfl

theorem storeUnaligned_besides (instr : Instruction) (addr : Word) (merge : Word → Word → Word) :
    storeUnaligned (besides others m) instr addr merge
      = lift others (besides others) (storeUnaligned m instr addr merge) := by
  rw [storeUnaligned, storeUnaligned]
  split
  · rfl
  · rw [ReadMem_besides (.inr (.inr rfl))]
    refine lift_bind _ fun _ => ?_
    exact WriteMem_besides (.inr (.inr rfl)) _

theorem Execute_besides (instr : Instruction) :
    Execute (besides others m) instr = lift others (Effect.besides others) (Execute m instr) := by
  cases hcode : instr.opCode <;>
    simp only [Execute, hcode, besides_ReadRegister, besides_WriteRegister, lift_ite]
  -- what is left touches memory: the byte, half or word is found in the frames
  all_goals try rfl
  case OP_LB =>
    rw [ReadMem_besides (.inl rfl)]
    exact lift_bind _ fun _ => rfl
  case OP_LBU =>
    rw [ReadMem_besides (.inl rfl)]
    exact lift_bind _ fun _ => rfl
  case OP_LH =>
    rw [ReadMem_besides (.inr (.inl rfl))]
    exact ite_congr rfl (fun _ => rfl) fun _ => lift_bind _ fun _ => rfl
  case OP_LHU =>
    rw [ReadMem_besides (.inr (.inl rfl))]
    exact ite_congr rfl (fun _ => rfl) fun _ => lift_bind _ fun _ => rfl
  case OP_LW =>
    rw [ReadMem_besides (.inr (.inr rfl))]
    exact ite_congr rfl (fun _ => rfl) fun _ => lift_bind _ fun _ => rfl
  case OP_LWL =>
    rw [loadUnaligned_besides]
    exact lift_bind _ fun _ => rfl
  case OP_LWR =>
    rw [loadUnaligned_besides]
    exact lift_bind _ fun _ => rfl
  case OP_SB =>
    rw [WriteMem_besides (.inl rfl)]
    exact lift_map _ fun _ => rfl
  case OP_SH =>
    rw [WriteMem_besides (.inr (.inl rfl))]
    exact lift_map _ fun _ => rfl
  case OP_SW =>
    rw [WriteMem_besides (.inr (.inr rfl))]
    exact lift_map _ fun _ => rfl
  case OP_SWL =>
    rw [storeUnaligned_besides]
    exact lift_map _ fun _ => rfl
  case OP_SWR =>
    rw [storeUnaligned_besides]
    exact lift_map _ fun _ => rfl

/-- **An instruction** does the same on the machine with the other bytes. -/
theorem OneInstruction_besides (m : Machine) (others : Nat → Byte) :
    OneInstruction (besides others m) = lift others (besides others) (OneInstruction m) := by
  rw [OneInstruction, OneInstruction, besides_ReadRegister, ReadMem_besides (.inr (.inr rfl))]
  refine lift_bind _ fun raw => ?_
  rw [id, Execute_besides]
  exact lift_bind _ fun e => rfl

/-! ## Exceptions are precise -/

/-- What is returned meets `P`, and an exception is raised by the machine as
it was. -/
def Precise {α : Type} (m : Machine) (P : α → Prop) : Except Stop α → Prop
  | .ok a => P a
  | .error (.raise m' _ _) => m' = m
  | .error .abort => True

theorem Precise.ite {α : Type} {P : α → Prop} {c : Prop} [Decidable c] {x y : Except Stop α}
    (hx : Precise m P x) (hy : Precise m P y) : Precise m P (if c then x else y) := by
  split
  · exact hx
  · exact hy

theorem Precise.bind {α β : Type} {P : α → Prop} {Q : β → Prop} {k : α → Except Stop β}
    {x : Except Stop α} (hx : Precise m P x) (hk : ∀ a, P a → Precise m Q (k a)) :
    Precise m Q (x >>= k) := by
  cases x with
  | ok a => exact hk a hx
  | error stop => cases stop <;> exact hx

theorem Precise.map {α β : Type} {P : α → Prop} {Q : β → Prop} {k : α → β}
    {x : Except Stop α} (hx : Precise m P x) (hk : ∀ a, P a → Q (k a)) :
    Precise m Q (x.map k) := by
  cases x with
  | ok a => exact hk a hx
  | error stop => cases stop <;> exact hx

section Access

variable {addr : Word} {size : Nat} {writing : Bool}

theorem precise_Translate : Precise m (fun _ => True) (Translate m addr size writing) := by
  rw [Translate]
  refine Precise.ite rfl ?_
  split
  · rfl
  · exact Precise.ite trivial trivial

theorem precise_ReadMem : Precise m (fun _ => True) (ReadMem m addr size) := by
  refine precise_Translate.bind fun p _ => ?_
  split <;> trivial

theorem precise_WriteMem (value : Word) :
    Precise m (fun m' => m'.pageTable = m.pageTable) (WriteMem m addr size value) :=
  precise_Translate.bind fun _ _ => Precise.ite rfl trivial

theorem precise_loadUnaligned (instr : Instruction) (merge : Word → Word → Word) :
    Precise m (fun _ => True) (loadUnaligned m instr addr merge) :=
  Precise.ite trivial (precise_ReadMem.bind fun _ _ => trivial)

theorem precise_storeUnaligned (instr : Instruction) (merge : Word → Word → Word) :
    Precise m (fun m' => m'.pageTable = m.pageTable) (storeUnaligned m instr addr merge) :=
  Precise.ite trivial (precise_ReadMem.bind fun _ _ => precise_WriteMem _)

end Access

theorem precise_Execute (instr : Instruction) :
    Precise m (fun e => e.machine.pageTable = m.pageTable) (Execute m instr) := by
  cases hcode : instr.opCode <;> simp only [Execute, hcode]
  all_goals try exact rfl
  case OP_ADD => exact Precise.ite rfl rfl
  case OP_ADDI => exact Precise.ite rfl rfl
  case OP_SUB => exact Precise.ite rfl rfl
  case OP_DIV => exact Precise.ite rfl (Precise.ite trivial rfl)
  case OP_DIVU => exact Precise.ite rfl rfl
  case OP_LB => exact precise_ReadMem.bind fun _ _ => rfl
  case OP_LBU => exact precise_ReadMem.bind fun _ _ => rfl
  case OP_LH => exact Precise.ite rfl (precise_ReadMem.bind fun _ _ => rfl)
  case OP_LHU => exact Precise.ite rfl (precise_ReadMem.bind fun _ _ => rfl)
  case OP_LW => exact Precise.ite rfl (precise_ReadMem.bind fun _ _ => rfl)
  case OP_LWL => exact (precise_loadUnaligned instr _).bind fun _ _ => rfl
  case OP_LWR => exact (precise_loadUnaligned instr _).bind fun _ _ => rfl
  case OP_SB => exact (precise_WriteMem _).map fun _ h => h
  case OP_SH => exact (precise_WriteMem _).map fun _ h => h
  case OP_SW => exact (precise_WriteMem _).map fun _ h => h
  case OP_SWL => exact (precise_storeUnaligned instr _).map fun _ h => h
  case OP_SWR => exact (precise_storeUnaligned instr _).map fun _ h => h
  case SPECIAL => trivial
  case BCOND => trivial

/-- **An exception** finds the machine as the instruction found it. -/
theorem precise_OneInstruction (m : Machine) :
    Precise m (fun m' => m'.pageTable = m.pageTable) (OneInstruction m) :=
  precise_ReadMem.bind fun _ _ => (precise_Execute _).bind fun _ h => h

theorem OneInstruction_pageTable {m' : Machine} (h : OneInstruction m = .ok m') :
    m'.pageTable = m.pageTable := by
  have hprecise := precise_OneInstruction m
  rwa [h] at hprecise

/-! ## What is outside of the frames stays -/

theorem besides_self (m : Machine) : besides m.mainMemory m = m := by
  have hmemory : (besides m.mainMemory m).mainMemory = m.mainMemory := by
    funext p
    rw [besides_mainMemory, ite_self]
  exact congrArg (fun memory => { m with mainMemory := memory }) hmemory

theorem OneInstruction_mainMemory {m' : Machine} (h : OneInstruction m = .ok m') {p : Nat}
    (hp : ¬Owns m.pageTable p) : m'.mainMemory p = m.mainMemory p := by
  have hsame := OneInstruction_besides m m.mainMemory
  rw [besides_self, h] at hsame
  have hm' : m' = besides m.mainMemory m' := Except.ok.inj hsame
  rw [hm']
  exact if_neg ((OneInstruction_pageTable h).symm ▸ hp)

end DistributedAscii.NachOS.Mips
