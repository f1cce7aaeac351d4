import DistributedAscii.NachOS.Mips.Execution
import DistributedAscii.NachOS.Mips.Isolation

/-!
# NachOS — user programs

`Machine::Run` between two exceptions is a run of the instruction set on
what the program sees of the machine (`Run_follows`). The page table does
not change in between, so that neither does what faults.
-/

namespace DistributedAscii.NachOS.Mips

open Lib.Mips (State Instr Outcome Trap)

/-- `n` rounds of `Run`, up to an exception. -/
def Run (m : Machine) : Nat → Except Stop Machine
  | 0 => .ok m
  | n + 1 => do
      let m ← OneInstruction m
      Run m n

variable {m : Machine}

theorem access_eq {m m' : Machine} (h : m'.pageTable = m.pageTable) : access m' = access m := by
  simp only [access, Machine.Translate, h]

theorem Run_succ (n : Nat) {m' : Machine} (h : OneInstruction m = .ok m') :
    Run m (n + 1) = Run m' n := by
  rw [Run, h]
  rfl

/-- A run does the same on the machine with other bytes behind the frames. -/
theorem Run_besides (m : Machine) (others : Nat → Byte) (n : Nat) :
    Run (besides others m) n = lift others (besides others) (Run m n) := by
  induction n generalizing m with
  | zero => rfl
  | succ n ih =>
      rw [Run, Run, OneInstruction_besides]
      exact lift_bind _ fun m' => ih m'

/-- What holds between two instructions holds behind the next one. -/
theorem proper_finish (h : Proper m) {e : Effect} (hload : e.nextLoadReg.toNat < 32)
    (htable : e.machine.pageTable = m.pageTable) : Proper (finish e) where
  zero := rfl
  load := hload
  distinct := by
    have hfinish : (finish e).pageTable = m.pageTable := htable
    rw [Distinct, hfinish]
    exact h.distinct

/-- **One instruction** is one of the architecture. -/
theorem OneInstruction_follows (h : Proper m)
    (hfaithful : ∀ i, (view m).fetch (access m) = .ok i → Faithful (view m) i) :
    match (view m).step (access m) with
    | .next s => ∃ m', OneInstruction m = .ok m' ∧ view m' = s ∧ Proper m' ∧
        m'.pageTable = m.pageTable
    | .trap t => OneInstruction m = .error (stopOf m t)
    | .undefined => True := by
  have hpc : m.ReadRegister PCReg = (view m).pc := rfl
  rw [State.step]
  simp only [State.fetch] at hfaithful ⊢
  cases hfault : State.faultAt (access m) (view m).pc 4 false with
  | some t =>
      have hone : OneInstruction m = .error (stopOf m t) := by
        rw [OneInstruction, hpc, ReadMem_fault (.inr (.inr rfl)) hfault]
        rfl
      exact hone
  | none =>
      rw [hfault] at hfaithful
      have hone : OneInstruction m
          = (Execute m (Decode ((view m).word (view m).pc))).map finish := by
        rw [OneInstruction, hpc, ReadMem_word hfault]
        rfl
      have hexecute := Execute_follows h _ (hfaithful _ rfl)
      rw [hone]
      dsimp only
      cases hexec : (view m).exec (access m) (.ofWord ((view m).word (view m).pc)) with
      | next s =>
          rw [hexec] at hexecute
          obtain ⟨e, he, hview, hload, htable⟩ := hexecute
          exact ⟨finish e, congrArg (Except.map finish) he, hview, proper_finish h hload htable,
            htable⟩
      | trap t =>
          rw [hexec] at hexecute
          exact congrArg (Except.map finish) hexecute
      | undefined => trivial

/-- **A run** of a user program is one of the architecture: the same state
behind it, or the same exception, raised by the machine as the instruction
found it. -/
theorem Run_follows (h : Proper m) (n : Nat)
    (hfaithful : State.EachInstr (access m) Faithful n (view m)) :
    match (view m).run (access m) n with
    | .next s => ∃ m', Run m n = .ok m' ∧ view m' = s ∧ Proper m' ∧ m'.pageTable = m.pageTable
    | .trap t => ∃ k m', k < n ∧ (view m).run (access m) k = .next (view m') ∧ Proper m' ∧
        Run m n = .error (stopOf m' t)
    | .undefined => True := by
  induction n generalizing m with
  | zero => exact ⟨m, rfl, rfl, h, rfl⟩
  | succ n ih =>
      rw [State.EachInstr] at hfaithful
      obtain ⟨hfirst, hrest⟩ := hfaithful
      have hone := OneInstruction_follows h (fun i hi => by simpa only [hi] using hfirst)
      rw [State.run]
      cases hstep : (view m).step (access m) with
      | next s =>
          rw [hstep] at hone hrest
          obtain ⟨m', hm', rfl, hproper, htable⟩ := hone
          -- no instruction changes the table, so the rest runs with the same access
          rw [← access_eq htable] at hrest
          have hrun := ih hproper hrest
          rw [access_eq htable] at hrun
          have hRun := fun k => Run_succ k hm'
          have hrun' : ∀ k, (view m).run (access m) (k + 1) = (view m').run (access m) k :=
            fun k => by rw [State.run, hstep]
          dsimp only
          rw [hRun]
          cases hback : (view m').run (access m) n with
          | next s' =>
              rw [hback] at hrun
              obtain ⟨m'', hm'', hview, hproper', htable'⟩ := hrun
              exact ⟨m'', hm'', hview, hproper', htable'.trans htable⟩
          | trap t =>
              rw [hback] at hrun
              obtain ⟨k, m'', hk, hview, hproper', herror⟩ := hrun
              exact ⟨k + 1, m'', Nat.succ_lt_succ hk, (hrun' k).trans hview, hproper', herror⟩
          | undefined => trivial
      | trap t =>
          rw [hstep] at hone
          have hone : OneInstruction m = .error (stopOf m t) := hone
          refine ⟨0, m, Nat.succ_pos n, rfl, h, ?_⟩
          rw [Run, hone]
          rfl
      | undefined => trivial

/-! ## Exceptions -/

/-- The exception of a trap, with what `RaiseException` has as `badVAddr`. -/
def exceptionOf : Trap ExceptionType → Exception × Word
  | .memory cause addr => (.access cause, addr)
  | .overflow => (.OverflowException, 0)
  | .reserved => (.IllegalInstrException, 0)
  | .syscall => (.SyscallException, 0)

theorem stopOf_eq (m : Machine) (t : Trap ExceptionType) :
    stopOf m t = .raise m (exceptionOf t).1 (exceptionOf t).2 := by
  cases t <;> rfl

/-- A program in frame 2: `-3 * 5` to address 64 and back, and a system
call. -/
def product : Machine where
  registers r := if r = NextPCReg then 4 else 0
  mainMemory p :=
    let program : List Word :=
      [0x2402fffd, 0x24030005, 0x00430018, 0x00002012, 0xac040040, 0x8c050040, 0x0000000c]
    (Lib.Words.bytesOf (program.getD ((p - 256) / 4) 0)).getD (p % 4) 0
  pageTable := [{ virtualPage := 0, physicalPage := 2, valid := true, readOnly := false }]

theorem proper_product : Proper product where
  zero := rfl
  load := by decide
  distinct := by
    intro i j entry entry' hi hj _ _ _
    have hlen : ∀ k e, product.pageTable[k]? = some e → k = 0 := by
      intro k e hk
      have := (List.getElem?_eq_some_iff.mp hk).1
      simp only [product, List.length_singleton] at this
      omega
    rw [hlen i entry hi, hlen j entry' hj]

example : (match (view product).run (access product) 6 with
    | .next s => s.flush.gpr 5
    | _ => 0) = -15 := by
  decide

end DistributedAscii.NachOS.Mips
