import DistributedAscii.NachOS.Mips.Fields
import DistributedAscii.NachOS.Mips.Mult
import DistributedAscii.NachOS.Mips.View

/-!
# NachOS — the simulator against the instruction set

An instruction on the machine is the instruction of the architecture on what
the user program sees of the machine, with the same exception or the same
state behind it (`OneInstruction_follows`). The operations that the
simulator gets wrong are `Faithful`'s: `OR` with a bit that the first
operand lacks, the logical shifts to the right of a negative number, and a
jump over the border of a region of the address space.
-/

namespace DistributedAscii.NachOS.Mips

open Lib.Mips (State Access Trap Reg Instr Op Outcome)

variable {m : Machine}

/-! ## Registers -/

theorem WriteRegister_registers (m : Machine) (k : Nat) (value : Word) (r : Nat) :
    (m.WriteRegister k value).registers r = if r = k then value else m.registers r := rfl

theorem gpr_view (m : Machine) (r : Reg) :
    (view m).gpr r = if r = 0 then 0 else m.registers r.toNat := rfl

theorem view_WriteRegister (m : Machine) (r : Reg) (value : Word) :
    view (m.WriteRegister r.toNat value) = (view m).put r value := by
  have hlt := r.isLt
  have hother : ∀ k, 32 ≤ k → (m.WriteRegister r.toNat value).registers k = m.registers k := by
    intro k hk
    exact if_neg (by omega)
  have hgpr : ∀ r', (view (m.WriteRegister r.toNat value)).gpr r' =
      if r' = 0 then 0 else if r' = r then value else m.registers r'.toNat := by
    intro r'
    simp only [view, WriteRegister_registers, BitVec.toNat_inj]
  by_cases hzero : r = 0
  · rw [State.put, if_pos hzero]
    ext1
    · funext r'
      rw [hgpr]
      by_cases hr' : r' = 0
      · rw [if_pos hr', gpr_view, if_pos hr']
      · rw [if_neg hr', if_neg (hzero ▸ hr'), gpr_view, if_neg hr']
    all_goals simp [view, hother, HiReg, LoReg, PCReg, NextPCReg, LoadReg, LoadValueReg]
    rfl
  · rw [State.put, if_neg hzero]
    ext1
    · funext r'
      rw [hgpr]
      by_cases hr' : r' = r
      · rw [if_pos hr', if_neg (hr' ▸ hzero)]
        exact (if_pos hr').symm
      · rw [if_neg hr']
        exact (if_neg hr').symm
    all_goals simp [view, hother, HiReg, LoReg, PCReg, NextPCReg, LoadReg, LoadValueReg]
    rfl

theorem view_hiLo (m : Machine) (hi lo : Word) :
    view ((m.WriteRegister HiReg hi).WriteRegister LoReg lo) = (view m).setHiLo hi lo := by
  ext1
  · funext r
    have hlt := r.isLt
    simp only [view, State.setHiLo, WriteRegister_registers, HiReg, LoReg]
    rw [if_neg (show r.toNat ≠ 33 by omega), if_neg (show r.toNat ≠ 32 by omega)]
  all_goals rfl

theorem view_hi (m : Machine) (value : Word) :
    view (m.WriteRegister HiReg value) = { view m with hi := value } := by
  ext1
  · funext r
    have hlt := r.isLt
    simp only [view, WriteRegister_registers, HiReg]
    rw [if_neg (show r.toNat ≠ 32 by omega)]
  all_goals rfl

theorem view_lo (m : Machine) (value : Word) :
    view (m.WriteRegister LoReg value) = { view m with lo := value } := by
  ext1
  · funext r
    have hlt := r.isLt
    simp only [view, WriteRegister_registers, LoReg]
    rw [if_neg (show r.toNat ≠ 33 by omega)]
  all_goals rfl

/-- The registers behind a delayed load. -/
theorem DelayedLoad_registers (m : Machine) (nextReg nextValue : Word) (r : Nat) :
    (m.DelayedLoad nextReg nextValue).registers r =
      if r = 0 then 0
      else if r = LoadValueReg then nextValue
      else if r = LoadReg then nextReg
      else if r = (m.registers LoadReg).toNat then m.registers LoadValueReg
      else m.registers r := rfl

/-- **A delayed load** arrives, and another one is pending. -/
theorem view_DelayedLoad (hload : (m.registers LoadReg).toNat < 32) (nextReg nextValue : Word) :
    view (m.DelayedLoad nextReg nextValue)
      = { (view m).put (view m).pending.1 (view m).pending.2 with
          pending := (BitVec.ofNat 5 nextReg.toNat, nextValue) } := by
  have hpending : (BitVec.ofNat 5 (m.registers LoadReg).toNat).toNat
      = (m.registers LoadReg).toNat := by
    rw [BitVec.toNat_ofNat]
    omega
  have hput := view_WriteRegister m (BitVec.ofNat 5 (m.registers LoadReg).toNat)
    (m.registers LoadValueReg)
  rw [hpending] at hput
  have hcontrol : ∀ k, 32 ≤ k → k ≠ LoadValueReg → k ≠ LoadReg →
      (m.DelayedLoad nextReg nextValue).registers k
        = (m.WriteRegister (m.registers LoadReg).toNat (m.registers LoadValueReg)).registers k := by
    intro k hk hvalue hreg
    rw [DelayedLoad_registers, if_neg (by omega), if_neg hvalue, if_neg hreg]
    rfl
  rw [show (view m).pending = (BitVec.ofNat 5 (m.registers LoadReg).toNat,
    m.registers LoadValueReg) from rfl, ← hput]
  ext1
  case gpr =>
    funext r
    have hlt := r.isLt
    rw [gpr_view]
    refine Eq.trans ?_ (gpr_view ..).symm
    by_cases hr : r = 0
    · rw [if_pos hr, if_pos hr]
    · have hr0 : r.toNat ≠ 0 := fun h0 => hr (BitVec.eq_of_toNat_eq h0)
      rw [if_neg hr, if_neg hr, WriteRegister_registers, DelayedLoad_registers, if_neg hr0,
        if_neg (by simp only [LoadValueReg]; omega), if_neg (by simp only [LoadReg]; omega)]
  case hi => exact hcontrol HiReg (by decide) (by decide) (by decide)
  case lo => exact hcontrol LoReg (by decide) (by decide) (by decide)
  case pc => exact hcontrol PCReg (by decide) (by decide) (by decide)
  case npc => exact hcontrol NextPCReg (by decide) (by decide) (by decide)
  case pending => rfl
  case mem => rfl

/-- The program counters, on the side of the user program. -/
theorem view_counters (m : Machine) (prev pc npc : Word) :
    view (((m.WriteRegister PrevPCReg prev).WriteRegister PCReg pc).WriteRegister NextPCReg npc)
      = { view m with pc, npc } := by
  ext1
  · funext r
    have hlt := r.isLt
    have hne : ∀ k, 32 ≤ k → r.toNat ≠ k := fun k hk => by omega
    simp only [view, WriteRegister_registers, if_neg (hne NextPCReg (by decide)),
      if_neg (hne PCReg (by decide)), if_neg (hne PrevPCReg (by decide))]
  all_goals rfl

/-- **The end of an instruction**: the load arrives, and the delay slot is
next. -/
theorem view_finish (e : Effect) (hload : (e.machine.registers LoadReg).toNat < 32) :
    view (finish e)
      = (view e.machine).retire e.pcAfter
          (BitVec.ofNat 5 e.nextLoadReg.toNat, e.nextLoadValue) := by
  have hnpc : (e.machine.DelayedLoad e.nextLoadReg e.nextLoadValue).ReadRegister NextPCReg
      = (view e.machine).npc := by
    have hview := congrArg State.npc (view_DelayedLoad hload e.nextLoadReg e.nextLoadValue)
    exact hview.trans (State.put_npc ..)
  rw [finish, view_counters, view_DelayedLoad hload, State.retire, ← hnpc]
  rfl

/-- **An exception**: the load arrives, and the program counters stay. -/
theorem view_raise (hload : (m.registers LoadReg).toNat < 32) (badVAddr : Word) :
    view (m.raise badVAddr) = (view m).flush := by
  have hbad : view (m.WriteRegister BadVAddrReg badVAddr) = view m := by
    ext1
    · funext r
      have hlt := r.isLt
      have hne : r.toNat ≠ BadVAddrReg := by
        simp only [BadVAddrReg]
        omega
      simp only [view, WriteRegister_registers, if_neg hne]
    all_goals rfl
  have hdelayed := view_DelayedLoad (m := m.WriteRegister BadVAddrReg badVAddr) hload 0 0
  rw [hbad] at hdelayed
  exact hdelayed

/-! ## Outcomes -/

/-- What the machine did is what the architecture says. -/
def Follows (m : Machine) (executed : Except Stop Effect) : Outcome ExceptionType → Prop
  | .next s => ∃ e, executed = .ok e ∧ view (finish e) = s ∧ e.nextLoadReg.toNat < 32 ∧
      e.machine.pageTable = m.pageTable
  | .trap t => executed = .error (stopOf m t)
  | .undefined => True

/-- An instruction whose effect is known before the load that is pending
arrives. -/
theorem follows_next (e : Effect) (hload : (e.machine.registers LoadReg).toNat < 32)
    (hnext : e.nextLoadReg.toNat < 32) (htable : e.machine.pageTable = m.pageTable) :
    Follows m (.ok e) (.next ((view e.machine).retire e.pcAfter
      (BitVec.ofNat 5 e.nextLoadReg.toNat, e.nextLoadValue))) :=
  ⟨e, rfl, view_finish e hload, hnext, htable⟩

theorem zero_lt_regs : (0 : Word).toNat < 32 := by decide

variable (h : Proper m)
include h

theorem follows_put (r : Reg) (value pcAfter : Word) :
    Follows m (.ok { machine := m.WriteRegister r.toNat value, pcAfter })
      (.next (((view m).put r value).retire pcAfter (0, 0))) := by
  have hlt := r.isLt
  have hload : (m.WriteRegister r.toNat value).registers LoadReg = m.registers LoadReg :=
    if_neg (by simp only [LoadReg]; omega)
  have hnext := follows_next (m := m) { machine := m.WriteRegister r.toNat value, pcAfter }
    (by rw [hload]; exact h.load) zero_lt_regs rfl
  rwa [view_WriteRegister] at hnext

theorem follows_hiLo (hi lo pcAfter : Word) :
    Follows m (.ok { machine := (m.WriteRegister HiReg hi).WriteRegister LoReg lo, pcAfter })
      (.next (((view m).setHiLo hi lo).retire pcAfter (0, 0))) := by
  have hnext := follows_next (m := m)
    { machine := (m.WriteRegister HiReg hi).WriteRegister LoReg lo, pcAfter } h.load zero_lt_regs
    rfl
  rwa [view_hiLo] at hnext

theorem follows_control (pcAfter : Word) :
    Follows m (.ok { machine := m, pcAfter }) (.next ((view m).retire pcAfter (0, 0))) :=
  follows_next { machine := m, pcAfter } h.load zero_lt_regs rfl

/-- A load: the fault, or the value for later. -/
theorem follows_load {addr : Word} {size : Nat} (hsize : IsSize size) (r : Reg) {raw value : Word}
    {extend : Word → Word}
    (hread : State.faultAt (access m) addr size false = none → ReadMem m addr size = .ok raw)
    (hextend : extend raw = value) (pcAfter : Word) (hpc : pcAfter = (view m).npc + 4) :
    Follows m ((ReadMem m addr size).bind fun raw =>
        .ok { machine := m, pcAfter, nextLoadReg := BitVec.ofNat 32 r.toNat,
              nextLoadValue := extend raw })
      ((view m).load (access m) addr size r value) := by
  rw [State.load]
  cases hfault : State.faultAt (access m) addr size false with
  | some t =>
      rw [ReadMem_fault hsize hfault]
      rfl
  | none =>
      have hlt := r.isLt
      have hreg : (BitVec.ofNat 32 r.toNat).toNat = r.toNat := by
        rw [BitVec.toNat_ofNat]
        omega
      rw [hread hfault, ← hpc]
      have hnext := follows_next (m := m)
        { machine := m, pcAfter, nextLoadReg := BitVec.ofNat 32 r.toNat,
          nextLoadValue := extend raw } h.load (by rw [hreg]; exact hlt) rfl
      have hreg' : BitVec.ofNat 5 (BitVec.ofNat 32 r.toNat).toNat = r := by
        rw [hreg, BitVec.ofNat_toNat, BitVec.setWidth_eq]
      rw [hreg'] at hnext
      subst hextend
      exact hnext

/-- A store: the fault, or new bytes in the flat memory. -/
theorem follows_store {addr : Word} {size : Nat} (hsize : IsSize size) (value pcAfter : Word)
    (hpc : pcAfter = (view m).npc + 4) :
    Follows m ((WriteMem m addr size value).map fun m => { machine := m, pcAfter })
      ((view m).store (access m) addr size value) := by
  rw [State.store]
  cases hfault : State.faultAt (access m) addr size true with
  | some t =>
      rw [WriteMem_fault hsize hfault]
      rfl
  | none =>
      obtain ⟨m', hwrite, hregisters, htable, hmem⟩ :=
        WriteMem_noFault h.distinct hsize hfault value
      rw [hwrite]
      have hnext := follows_next (m := m) { machine := m', pcAfter }
        (by rw [hregisters]; exact h.load) zero_lt_regs htable
      have hview : view m' = { view m with mem := (view m').mem } := by
        simp only [view, hregisters]
      rw [hview, hmem] at hnext
      rw [State.advance]
      subst hpc
      exact hnext

end DistributedAscii.NachOS.Mips
