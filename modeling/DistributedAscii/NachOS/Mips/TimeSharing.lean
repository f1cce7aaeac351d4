import DistributedAscii.Lib.Runs
import DistributedAscii.NachOS.Mips.Programs

/-!
# NachOS — several user programs on one machine

Instructions of the running thread and switches to other threads, in any
order (`Scheduler::Run` of `threads/scheduler.cc` with the registers of
`threads/thread.cc` and `AddrSpace::RestoreState`). Threads whose page
tables have no frame in common do not notice: each is where as many
instructions of it alone would have brought it (`alone`).
-/

namespace DistributedAscii.NachOS.Mips

open Lib.Runs
open Lib.Mips (State)

/-- The machine and the user threads by number, each with an address space. -/
structure System where
  machine : Machine
  currentThread : Nat
  userRegisters : Nat → Nat → Word
  pageTables : Nat → List TranslationEntry

namespace System

inductive Event where
  | instruction
  | run (nextThread : Nat)

/-- `SaveUserState`. -/
def save (s : System) : Nat → Nat → Word :=
  fun t => if t = s.currentThread then s.machine.registers else s.userRegisters t

/-- `Scheduler::Run`, on the side of the user programs. -/
def Run (s : System) (nextThread : Nat) : System :=
  { s with
    machine := { s.machine with
      registers := s.save nextThread
      pageTable := s.pageTables nextThread }
    currentThread := nextThread
    userRegisters := s.save }

/-- An exception goes to the kernel. -/
def step (s : System) : Event → Option System
  | .instruction => (OneInstruction s.machine).toOption.map fun machine => { s with machine }
  | .run nextThread => some (s.Run nextThread)

/-- The machine as thread `t` has it when it runs. -/
def of (s : System) (t : Nat) : Machine where
  registers := s.save t
  mainMemory := s.machine.mainMemory
  pageTable := s.pageTables t

/-- The instructions of thread `t`, from a point at which `current` runs. -/
def instructions (t : Nat) : Nat → List Event → Nat
  | _, [] => 0
  | current, .instruction :: rest =>
      instructions t current rest + if current = t then 1 else 0
  | _, .run nextThread :: rest => instructions t nextThread rest

/-- The page table of the machine is that of the running thread, and no two
threads have a frame in common. -/
structure Apart (s : System) : Prop where
  running : s.machine.pageTable = s.pageTables s.currentThread
  disjoint : ∀ {t u}, t ≠ u → ∀ p, Owns (s.pageTables t) p → ¬Owns (s.pageTables u) p

variable {s s' : System} {t : Nat} {e : Event}

theorem Apart.of_current (h : s.Apart) : s.of s.currentThread = s.machine := by
  rw [of, save, if_pos rfl, ← h.running]

theorem step_instruction (hstep : step s .instruction = some s') :
    ∃ machine, OneInstruction s.machine = .ok machine ∧ s' = { s with machine } := by
  obtain ⟨machine, hmachine, rfl⟩ := Option.map_eq_some_iff.mp hstep
  cases hone : OneInstruction s.machine with
  | ok m =>
      rw [hone] at hmachine
      cases hmachine
      exact ⟨machine, rfl, rfl⟩
  | error =>
      rw [hone] at hmachine
      cases hmachine

theorem Apart.step (h : s.Apart) (hstep : step s e = some s') : s'.Apart := by
  cases e with
  | instruction =>
      obtain ⟨machine, hone, rfl⟩ := step_instruction hstep
      exact ⟨(OneInstruction_pageTable hone).trans h.running, h.disjoint⟩
  | run nextThread =>
      cases hstep
      exact ⟨rfl, h.disjoint⟩

/-- A switch changes nothing for any thread. -/
theorem of_Run (s : System) (nextThread t : Nat) : (s.Run nextThread).of t = s.of t := by
  have hsave : (s.Run nextThread).save t = s.save t := by
    rw [save]
    by_cases ht : t = nextThread
    · subst ht
      exact if_pos rfl
    · exact if_neg ht
  rw [of, hsave]
  rfl

/-- An instruction of another thread changes nothing in the frames of `t`. -/
theorem of_other (h : s.Apart) (ht : t ≠ s.currentThread) {machine : Machine}
    (hone : OneInstruction s.machine = .ok machine) :
    { s with machine }.of t = besides machine.mainMemory (s.of t) := by
  have hsave : { s with machine }.save t = s.save t := by
    rw [save, save, if_neg ht, if_neg ht]
  have hmemory : machine.mainMemory = (besides machine.mainMemory (s.of t)).mainMemory := by
    funext p
    rw [besides_mainMemory]
    split
    case isTrue howns =>
      have hnot : ¬Owns s.machine.pageTable p := by
        rw [h.running]
        exact h.disjoint ht p howns
      exact OneInstruction_mainMemory hone hnot
    case isFalse => rfl
  rw [of, hsave]
  exact congrArg (fun memory => Machine.mk (s.save t) memory (s.pageTables t)) hmemory

theorem besides_besides (others others' : Nat → Byte) (m : Machine) :
    besides others (besides others' m) = besides others m := by
  have hmemory : (besides others (besides others' m)).mainMemory
      = (besides others m).mainMemory := by
    funext p
    simp only [besides_mainMemory, besides_pageTable]
    by_cases howns : Owns m.pageTable p
    · simp only [if_pos howns]
    · simp only [if_neg howns]
  exact congrArg (fun memory => { m with mainMemory := memory }) hmemory

/-- **Time sharing is invisible**: behind any run of instructions and
switches, thread `t` is where its own instructions alone bring it, up to
bytes that are not in its frames. -/
theorem alone {events : List Event} (h : s.Apart) (hrun : exec step s events = some s') (t : Nat) :
    ∃ m, Mips.Run (s.of t) (instructions t s.currentThread events) = .ok m ∧
      s'.of t = besides s'.machine.mainMemory m := by
  induction events generalizing s with
  | nil =>
      cases hrun
      exact ⟨_, rfl, (besides_self _).symm⟩
  | cons e rest ih =>
      obtain ⟨s₁, hstep, hrest⟩ := Option.bind_eq_some_iff.mp hrun
      obtain ⟨m, hm, hof⟩ := ih (h.step hstep) hrest
      cases e with
      | instruction =>
          obtain ⟨machine, hone, rfl⟩ := step_instruction hstep
          rw [instructions]
          by_cases ht : s.currentThread = t
          · subst ht
            have hfirst : OneInstruction (s.of s.currentThread) = .ok machine := by
              rw [h.of_current]
              exact hone
            have hnext : System.of { s with machine } s.currentThread = machine :=
              (h.step hstep).of_current
            rw [if_pos rfl, Run_succ _ hfirst, ← hnext]
            exact ⟨m, hm, hof⟩
          · rw [if_neg ht]
            rw [of_other h (Ne.symm ht) hone, Run_besides] at hm
            cases halone : Mips.Run (s.of t) (instructions t s.currentThread rest) with
            | ok m' =>
                rw [halone] at hm
                cases hm
                exact ⟨m', rfl, hof.trans (besides_besides ..)⟩
            | error =>
                rw [halone] at hm
                cases hm
      | run nextThread =>
          cases hstep
          rw [of_Run] at hm
          exact ⟨m, hm, hof⟩

/-- The other threads may be at any point of theirs: the next instruction of
`t`, or its exception, is the one that it comes to alone. -/
theorem undisturbed {events : List Event} (h : s.Apart) (hrun : exec step s events = some s')
    (t : Nat) :
    ∃ m, Mips.Run (s.of t) (instructions t s.currentThread events) = .ok m ∧
      s'.of t = besides s'.machine.mainMemory m ∧
      OneInstruction (s'.of t)
        = lift s'.machine.mainMemory (besides s'.machine.mainMemory) (OneInstruction m) := by
  obtain ⟨m, hm, hof⟩ := alone h hrun t
  exact ⟨m, hm, hof, by rw [hof, OneInstruction_besides]⟩

/-- What a user program sees is in its frames. -/
theorem view_besides (others : Nat → Byte) (m : Machine) : view (besides others m) = view m := by
  ext1
  case mem =>
    funext addr
    have htranslate : (besides others m).Translate addr false = m.Translate addr false := rfl
    simp only [view, htranslate]
    cases hp : m.Translate addr false with
    | error => rfl
    | ok p =>
        obtain ⟨entry, hentry, hvalid, h0, -, rfl⟩ := Translate_ok hp
        refine if_pos ⟨entry, List.mem_of_getElem? hentry, hvalid, ?_⟩
        simp only [PageSize]
        omega
  all_goals rfl

/-- Thread `t` has the program of `product` in frame `t + 2`. -/
def products : System where
  machine := { product with mainMemory := fun p => product.mainMemory (p % 128 + 256) }
  currentThread := 0
  userRegisters _ := product.registers
  pageTables t := [{ virtualPage := 0, physicalPage := t + 2, valid := true, readOnly := false }]

def slices : List Event :=
  [.instruction, .run 1, .instruction, .instruction, .run 0, .instruction, .run 1, .instruction,
    .instruction, .instruction, .run 0, .instruction]

theorem apart_products : products.Apart where
  running := rfl
  disjoint := by
    rintro t u htu p ⟨entry, hentry, -, hframe⟩ ⟨entry', hentry', -, hframe'⟩
    rw [products, List.mem_singleton] at hentry hentry'
    subst hentry hentry'
    have hsame : (t : Int) + 2 = u + 2 := hframe.trans hframe'.symm
    omega

theorem undisturbed_slices : ∃ s', exec step products slices = some s' ∧
    ∃ m, Mips.Run (products.of 1) 5 = .ok m ∧ s'.of 1 = besides s'.machine.mainMemory m ∧
      OneInstruction (s'.of 1)
        = lift s'.machine.mainMemory (besides s'.machine.mainMemory) (OneInstruction m) := by
  obtain ⟨s', hrun⟩ := Option.isSome_iff_exists.mp
    (show (exec step products slices).isSome from by decide)
  exact ⟨s', hrun, undisturbed apart_products hrun 1⟩

theorem proper_products : Proper (products.of 1) where
  zero := rfl
  load := by decide
  distinct := by
    intro i j entry entry' hi hj _ _ _
    have hfirst : ∀ k e, (products.of 1).pageTable[k]? = some e → k = 0 := by
      intro k e hk
      have hlt := (List.getElem?_eq_some_iff.mp hk).1
      exact Nat.lt_one_iff.mp hlt
    rw [hfirst i entry hi, hfirst j entry' hj]

end System

end DistributedAscii.NachOS.Mips
