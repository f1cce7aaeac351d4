import DistributedAscii.NachOS.Exception

/-!
# NachOS — the balance of a system call

A handler that takes `Console` should give it back and advance the program
counters, whichever way it returns. `Running` is what holds between `P` and
the return; from there `V` and `returnFromSystemCall` together are the only
balanced way out. `NachOS_Read` has others.
-/

namespace DistributedAscii.NachOS

open Lib.Outcome

namespace Kernel

/-- `Console` was released as often as it was acquired. -/
def Balanced (k k' : Kernel) : Prop :=
  k'.acquired + k.released = k'.released + k.acquired

/-- The program counters went on by one instruction. -/
def Advanced (k k' : Kernel) : Prop :=
  k'.ReadRegister PrevPCReg = k.ReadRegister PCReg ∧
    k'.ReadRegister PCReg = k.ReadRegister NextPCReg ∧
    k'.ReadRegister NextPCReg = k.ReadRegister NextPCReg + 4

/-- `Console` is held since `k`, and the program counters have not moved. -/
structure Running (k k' : Kernel) : Prop where
  acquired : k'.acquired = k.acquired + 1
  released : k'.released = k.released
  pc : k'.ReadRegister PCReg = k.ReadRegister PCReg
  nextPC : k'.ReadRegister NextPCReg = k.ReadRegister NextPCReg
  load : k'.ReadRegister LoadReg = 0
  pageTable : k'.pageTable = k.pageTable

theorem running_P {k : Kernel} (hload : k.ReadRegister LoadReg = 0) (others : Others) :
    Running k (k.P others) :=
  ⟨rfl, rfl, rfl, rfl, hload, rfl⟩

namespace Running

variable {k k₁ k₂ : Kernel}

/-- What is neither a register nor `Console` does not matter. -/
theorem congr (h : Running k k₁) (hregisters : k₂.registers = k₁.registers)
    (htable : k₂.pageTable = k₁.pageTable) (hacquired : k₂.acquired = k₁.acquired)
    (hreleased : k₂.released = k₁.released) : Running k k₂ where
  acquired := hacquired.trans h.acquired
  released := hreleased.trans h.released
  pc := (congrFun hregisters _).trans h.pc
  nextPC := (congrFun hregisters _).trans h.nextPC
  load := (congrFun hregisters _).trans h.load
  pageTable := htable.trans h.pageTable

theorem ask (h : Running k k₁) (call : HostCall) : Running k (k₁.ask call) :=
  h.congr rfl rfl rfl rfl

/-- The result of the call goes to register 2. -/
theorem result (h : Running k k₁) (value : Word) : Running k (k₁.WriteRegister 2 value) where
  acquired := h.acquired
  released := h.released
  pc := h.pc
  nextPC := h.nextPC
  load := h.load
  pageTable := h.pageTable

theorem machine {m : Machine} (h : Running k k₁) (hkeeps : Machine.Keeps k₁.toMachine m) :
    Running k { k₁ with toMachine := m } where
  acquired := h.acquired
  released := h.released
  pc := (hkeeps.registers _ (by decide) (by decide) (by decide)).trans h.pc
  nextPC := (hkeeps.registers _ (by decide) (by decide) (by decide)).trans h.nextPC
  load := hkeeps.loadReg h.load
  pageTable := hkeeps.pageTable.trans h.pageTable

theorem readMem (h : Running k k₁) {addr : Word} {r : Kernel × Option Word}
    (hread : k₁.ReadMem addr = .ok r) : Running k r.1 := by
  obtain ⟨⟨m, value⟩, hm, hr⟩ := bind_eq_ok.mp hread
  cases hr
  exact h.machine (Machine.ReadMem_keeps h.load hm)

theorem writeMem (h : Running k k₁) {addr : Word} {value : Byte} {r : Kernel × Bool}
    (hwrite : k₁.WriteMem addr value = .ok r) : Running k r.1 := by
  obtain ⟨⟨m, stored⟩, hm, hr⟩ := bind_eq_ok.mp hwrite
  cases hr
  exact h.machine (Machine.WriteMem_keeps h.load hm)

theorem copyIn {direc : Word} {size : Nat} {r : Kernel × Option (List Byte)}
    (h : Running k k₁) (hcopy : k₁.copyIn direc size = .ok r) : Running k r.1 :=
  copyIn_keeps (fun h => h.readMem) h hcopy

theorem copyAddress {direc : Word} {n : Nat} {r : Kernel × Option (List Byte)}
    (h : Running k k₁) (hcopy : k₁.copyAddress direc n = .ok r) : Running k r.1 :=
  copyAddress_keeps (fun h => h.readMem) h hcopy

/-- The loop of `NachOS_Read` runs to its end if no byte of the buffer is on
an invalid page. -/
theorem copyOut {virtualAddr : Word} {bytes : List Byte} {r : Kernel × Bool}
    (h : Running k k₁) (hcopy : k₁.copyOut virtualAddr bytes = .ok r) :
    Running k r.1 ∧
      (r.2 = true ↔ ∀ i < bytes.length, ¬k.OnInvalidPage (behind virtualAddr i)) := by
  induction bytes generalizing k₁ virtualAddr r with
  | nil =>
      cases hcopy
      simp [h]
  | cons byte rest ih =>
      obtain ⟨⟨k₂, stored⟩, hwrite, hrest⟩ := bind_eq_ok.mp hcopy
      have hk₂ := h.writeMem hwrite
      obtain ⟨⟨m, stored'⟩, hm, hr⟩ := bind_eq_ok.mp hwrite
      cases hr
      have hinvalid : k₁.OnInvalidPage virtualAddr ↔ k.OnInvalidPage virtualAddr := by
        rw [Machine.OnInvalidPage, Machine.OnInvalidPage, h.pageTable]
      obtain ⟨rfl, hvalid, -, -⟩ | ⟨rfl, hfault, -⟩ := Machine.WriteMem_cases hm
      · obtain ⟨hk', hstored⟩ := ih hk₂ hrest
        refine ⟨hk', hstored.trans ⟨fun hall i hi => ?_, fun hall i hi => ?_⟩⟩
        · cases i with
          | zero => rwa [behind_zero, ← hinvalid]
          | succ i =>
              rw [← behind_succ]
              exact hall i (by simpa using hi)
        · rw [behind_succ]
          exact hall (i + 1) (by simpa using hi)
      · cases hrest
        refine ⟨hk₂, iff_of_false (by simp) fun hall => ?_⟩
        have := hall 0 (by simp)
        rw [behind_zero, ← hinvalid] at this
        exact this hfault

/-! ## The ways out -/

/-- `V` and `returnFromSystemCall`. -/
theorem complete (h : Running k k₁) :
    Balanced k k₁.V.returnFromSystemCall ∧ Advanced k k₁.V.returnFromSystemCall := by
  refine ⟨?_, ?_, ?_, ?_⟩
  · show k₁.acquired + k.released = k₁.released + 1 + k.acquired
    rw [h.acquired, h.released]
    omega
  · exact h.pc
  · exact h.nextPC
  · exact congrArg (· + 4) h.nextPC

/-- Without `V` the semaphore stays taken. -/
theorem not_balanced (h : Running k k₁) (hacquired : k₂.acquired = k₁.acquired)
    (hreleased : k₂.released = k₁.released) : ¬Balanced k k₂ := by
  unfold Balanced
  rw [hacquired, hreleased, h.acquired, h.released]
  omega

end Running

/-! ## The handlers -/

/-- The arguments of `NachOS_Read` with which it goes on to its last line:
something is read from an open file, and no byte of it goes to an invalid
page. -/
def ReadCompletes (unix : Unix) (k : Kernel) : Prop :=
  let size := (k.ReadRegister 5).toInt
  let id := (k.ReadRegister 6).toInt
  0 < size ∧ k.openFilesTable.isOpened id = some true ∧
    ∀ u, k.openFilesTable.getUnixHandle id = some u →
      ∀ bytes, unix.read u size.toNat = some bytes →
        ∀ i < bytes.length, ¬k.OnInvalidPage (behind (k.ReadRegister 4) i)

variable {unix : Unix} {others : Others} {k k' : Kernel}

/-- Behind the tests of `size`. -/
theorem Running.readFrom_balanced_iff {k₁ : Kernel} {virtualAddr : Word} {size id : Int}
    (hk₁ : Running k k₁) (h : readFrom unix virtualAddr size id k₁ = .ok k') :
    Balanced k k' ∧ Advanced k k' ↔ k₁.openFilesTable.isOpened id = some true ∧
      ∀ u, k₁.openFilesTable.getUnixHandle id = some u →
        ∀ bytes, unix.read u size.toNat = some bytes →
          ∀ i < bytes.length, ¬k.OnInvalidPage (behind virtualAddr i) := by
  obtain ⟨opened, hopened, h⟩ := bind_eq_ok.mp h
  rw [need_eq_ok] at hopened
  split at h
  case isTrue hclosed =>
    cases h
    refine iff_of_false (fun hb => (hk₁.result (-1)).not_balanced rfl rfl hb.1) fun hc => ?_
    rw [hopened, hclosed] at hc
    simp at hc
  case isFalse hopen =>
    obtain ⟨u, hu, h⟩ := bind_eq_ok.mp h
    obtain ⟨-, -, h⟩ := bind_eq_ok.mp h
    rw [need_eq_ok] at hu
    rw [Bool.not_eq_false] at hopen
    rw [hopened, hopen, hu]
    simp only [true_and, Option.some.injEq, forall_eq']
    have hasked := hk₁.ask (.read u size.toNat)
    split at h
    case h_1 hread =>
      cases h
      rw [hread]
      exact iff_of_true (hasked.result (-1)).complete (by simp)
    case h_2 kernelBuffer hread =>
      rw [hread]
      simp only [Option.some.injEq, forall_eq']
      obtain ⟨r, hcopy, h⟩ := bind_eq_ok.mp h
      obtain ⟨hr, hstored⟩ := hasked.copyOut hcopy
      rw [← hstored]
      split at h
      case isTrue hfault =>
        cases h
        exact iff_of_false (fun hb => (hr.result (-1)).not_balanced rfl rfl hb.1) (by simp [hfault])
      case isFalse hdone =>
        cases h
        exact iff_of_true (hr.result _).complete (by simpa using hdone)

theorem NachOS_Read_balanced_iff (hload : k.ReadRegister LoadReg = 0)
    (h : NachOS_Read unix others k = .ok k') :
    Balanced k k' ∧ Advanced k k' ↔ ReadCompletes unix (k.P others) := by
  have hP := running_P hload others
  rw [NachOS_Read_eq] at h
  simp only [ReadCompletes, ReadRegister_P]
  rcases lt_trichotomy (k.ReadRegister 5).toInt 0 with hneg | hzero | hpos
  · rw [if_pos hneg] at h
    cases h
    exact iff_of_false (fun hb => (hP.result (-1)).not_balanced rfl rfl hb.1) fun hc => by omega
  · rw [if_neg (by omega), if_pos hzero] at h
    cases h
    exact iff_of_false (fun hb => (hP.result 0).not_balanced rfl rfl hb.1) fun hc => by omega
  · rw [if_neg (by omega), if_neg (by omega)] at h
    rw [hP.readFrom_balanced_iff h]
    simp only [hpos, true_and]
    rfl

theorem Running.writeTo {k₁ k₂ : Kernel} {id size : Int} {buffer : List Byte}
    (h : Running k k₁) (hwrite : Kernel.writeTo unix id size buffer k₁ = .ok k₂) :
    Running k k₂ := by
  simp only [Kernel.writeTo] at hwrite
  split at hwrite
  case isTrue =>
    cases hwrite
    exact h.result _
  case isFalse =>
    split at hwrite
    case isTrue =>
      cases hwrite
      exact (h.ask _).result _
    case isFalse =>
      split at hwrite
      case isTrue =>
        cases hwrite
        exact (h.ask _).result _
      case isFalse =>
        obtain ⟨opened, -, hwrite⟩ := bind_eq_ok.mp hwrite
        split at hwrite
        case isTrue =>
          cases hwrite
          exact h.result _
        case isFalse =>
          obtain ⟨id2, -, hwrite⟩ := bind_eq_ok.mp hwrite
          obtain ⟨-, -, hwrite⟩ := bind_eq_ok.mp hwrite
          cases hwrite
          exact (h.ask _).result _

theorem NachOS_Write_balanced (hload : k.ReadRegister LoadReg = 0)
    (h : NachOS_Write unix others k = .ok k') : Balanced k k' ∧ Advanced k k' := by
  have hP := running_P hload others
  obtain ⟨-, -, h⟩ := bind_eq_ok.mp h
  obtain ⟨r, hcopy, h⟩ := bind_eq_ok.mp h
  have hr := hP.copyIn hcopy
  split at h
  · cases h
    exact (hr.result (-1)).complete
  · obtain ⟨k₂, hwrite, h⟩ := bind_eq_ok.mp h
    cases h
    exact (hr.writeTo hwrite).complete

theorem returnFromSystemCall_V (k : Kernel) :
    k.returnFromSystemCall.V = k.V.returnFromSystemCall := rfl

theorem NachOS_Fork_balanced (hload : k.ReadRegister LoadReg = 0)
    (h : NachOS_Fork others k = .ok k') : Balanced k k' ∧ Advanced k k' := by
  have hP := running_P hload others
  obtain ⟨child, -, h⟩ := bind_eq_ok.mp h
  rw [Except.ok.injEq, returnFromSystemCall_V] at h
  subst h
  apply Running.complete
  exact hP.congr rfl rfl rfl rfl

theorem NachOS_Socket_balanced (hload : k.ReadRegister LoadReg = 0)
    (h : NachOS_Socket unix others k = .ok k') : Balanced k k' ∧ Advanced k k' := by
  have hP := running_P hload others
  have hasked : ∀ ipv6 type, Running k ((k.setIPv6 (ipv6 = AF_INET6)).P others |>.ask
      (.socket ipv6 type)) := fun ipv6 type => hP.congr rfl rfl rfl rfl
  simp only [NachOS_Socket, Except.ok.injEq] at h
  generalize (if k.ReadRegister 4 = AF_INET_NachOS then AF_INET else AF_INET6) = ipv6 at h
  generalize (if k.ReadRegister 5 = SOCK_STREAM_NachOS then SOCK_STREAM else SOCK_DGRAM) =
    type at h
  subst h
  apply Running.complete
  split
  · exact (hasked ipv6 type).result _
  · exact ((hasked ipv6 type).result _).congr rfl rfl rfl rfl

theorem NachOS_Connect_balanced (hload : k.ReadRegister LoadReg = 0)
    (h : NachOS_Connect unix others k = .ok k') : Balanced k k' ∧ Advanced k k' := by
  have hP := running_P hload others
  obtain ⟨r, hcopy, h⟩ := bind_eq_ok.mp h
  have hr := hP.copyAddress hcopy
  split at h
  case h_1 =>
    cases h
    exact (hr.result (-1)).complete
  case h_2 buffer _ =>
    rw [Except.ok.injEq] at h
    generalize (if r.1.IPv6 then AF_INET6 else AF_INET) = domain at h
    generalize (if r.1.IPv6 then [] else buffer) = address at h
    subst h
    apply Running.complete
    split
    · exact (hr.ask _).result _
    · exact (hr.ask _).result _

/-- The system calls that take `Console`. -/
inductive ConsoleCall where
  | read
  | write
  | fork
  | socket
  | connect
deriving DecidableEq, Repr

def ConsoleCall.run (unix : Unix) (others : Others) : ConsoleCall → Kernel → Except Crash Kernel
  | .read => NachOS_Read unix others
  | .write => NachOS_Write unix others
  | .fork => NachOS_Fork others
  | .socket => NachOS_Socket unix others
  | .connect => NachOS_Connect unix others

/-- `NachOS_Read` has to come to its last line. -/
def ConsoleCall.Completes (unix : Unix) (others : Others) : ConsoleCall → Kernel → Prop
  | .read, k => ReadCompletes unix (k.P others)
  | _, _ => True

/-- **A system call that returns is balanced** exactly if it is not a read
that stops early. -/
theorem balanced_iff (call : ConsoleCall) (unix : Unix) (others : Others) (k k' : Kernel)
    (h : call.run unix others k.trap = .ok k') :
    Balanced k.trap k' ∧ Advanced k.trap k' ↔ call.Completes unix others k.trap := by
  have hload : k.trap.ReadRegister LoadReg = 0 := Machine.loadReg_raise k.toMachine 0
  cases call with
  | read => exact NachOS_Read_balanced_iff hload h
  | write => exact iff_of_true (NachOS_Write_balanced hload h) trivial
  | fork => exact iff_of_true (NachOS_Fork_balanced hload h) trivial
  | socket => exact iff_of_true (NachOS_Socket_balanced hload h) trivial
  | connect => exact iff_of_true (NachOS_Connect_balanced hload h) trivial

/-- A read of four bytes from a file that is open. -/
theorem balanced_read :
    ∃ k', ConsoleCall.read.run oneFile besideUser user.trap = .ok k' ∧
      k'.host = [.read 5 4] ∧ Balanced user.trap k' ∧ Advanced user.trap k' := by
  refine ⟨_, rfl, rfl, (balanced_iff .read oneFile besideUser user _ rfl).mpr ?_⟩
  refine ⟨by decide, by decide +kernel, fun u hu bytes hread i hi => ?_⟩
  have hhandle : (user.trap.P besideUser).openFilesTable.getUnixHandle
      ((user.trap.P besideUser).ReadRegister 6).toInt = some 5 := by decide +kernel
  rw [hhandle, Option.some.injEq] at hu
  subst hu
  obtain rfl : [103, 97, 116, 111] = bytes := Option.some.inj hread
  have hpage : ∀ j : Fin 4, (behind (user.trap.ReadRegister 4) j).toNat / PageSize = 0 := by
    decide
  rintro ⟨entry, hentry, hinvalid⟩
  have htable : (user.trap.P besideUser).pageTable[0]? = some
      { virtualPage := 0, physicalPage := 0, valid := true, readOnly := false } := rfl
  rw [ReadRegister_P, hpage ⟨i, hi⟩, htable, Option.some.injEq] at hentry
  rw [← hentry] at hinvalid
  cases hinvalid

/-- A read of no bytes returns with `Console` taken and repeats itself. -/
theorem read_not_balanced :
    ∃ k', ConsoleCall.read.run noFiles alone idle.trap = .ok k' ∧
      ¬Balanced idle.trap k' ∧ ¬Advanced idle.trap k' := by
  refine ⟨_, rfl, ?_, ?_⟩
  · unfold Balanced
    decide
  · unfold Advanced
    decide

end Kernel

end DistributedAscii.NachOS
