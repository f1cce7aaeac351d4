import DistributedAscii.NachOS.Exception

/-!
# NachOS — socket handles

A user program knows a file by its handle and the host knows it by its
descriptor; `NachosOpenFilesTable` takes the one to the other. `NachOS_Socket`
enters the new descriptor in the table, as `NachOS_Open` does, but answers
with the descriptor itself, which `Write`, `Read` and `Close` take for a handle
and `Connect` for a descriptor. `socket_denotes_iff` says when the two
numbers are the same: when the descriptor is the first handle that is clear.
-/

namespace DistributedAscii.NachOS

open Lib.Outcome Lib.Runs

namespace NachosOpenFilesTable

theorem isOpened_eq_true {s : NachosOpenFilesTable} {h : Int} :
    s.isOpened h = some true ↔
      InTable h ∧ s.bit h.toNat = true ∧ s.entry h.toNat ≠ -1 := by
  by_cases hid : InTable h
  · obtain ⟨hnonneg, hlt⟩ := hid
    have hnat : (h.toNat : Int) = h := Int.toNat_of_nonneg hnonneg
    have hopened := isOpened_of_lt s (i := h.toNat) (by omega)
    rw [hnat] at hopened
    simp [hopened, InTable, hnonneg, hlt]
  · simp [isOpened_eq_none.mpr hid, hid]

/-- A file that is open and can be closed. -/
theorem Close_some {s t : NachosOpenFilesTable} {h index : Int} (hopened : s.isOpened h = some true)
    (hclose : s.Close h = some (index, t)) :
    t = (s.clearBit h.toNat).setEntry (s.entry h.toNat).toNat (-1) := by
  rw [Close, hopened, Option.bind_some, if_pos rfl, Option.ite_none_right_eq_some] at hclose
  exact (Prod.mk.inj (Option.some.inj hclose.2)).2.symm

end NachosOpenFilesTable

/-! ## What the calls ask of the host -/

namespace HostCall

/-- The call is one on the descriptor `u`. -/
def On (u : Int) : HostCall → Prop
  | .read fd _ => fd = u
  | .write fd _ => fd = u
  | .connect fd _ _ _ => fd = u
  | _ => False

/-- What the host answers to a call that makes a descriptor. -/
def made (unix : Unix) : HostCall → Option Int
  | .open name => some (unix.openRdWr name)
  | .socket domain type => some (unix.socket domain type)
  | _ => none

/-- The descriptors that are open after a call. -/
def after (unix : Unix) (descriptors : List Int) : HostCall → List Int
  | .close fd => if 0 ≤ unix.close fd then descriptors.filter (· ≠ fd) else descriptors
  | call =>
      match call.made unix with
      | some fd => if 0 ≤ fd then fd :: descriptors else descriptors
      | none => descriptors

/-- A new descriptor is an `int` that is not that of an open file. -/
def Honest (unix : Unix) (descriptors : List Int) (call : HostCall) : Prop :=
  ∀ fd ∈ call.made unix, fd = -1 ∨ 0 ≤ fd ∧ fd < 2 ^ 31 ∧ fd ∉ descriptors

instance (unix : Unix) (descriptors : List Int) (call : HostCall) :
    Decidable (Honest unix descriptors call) :=
  inferInstanceAs (Decidable (∀ fd ∈ call.made unix, _))

end HostCall

/-! ## Programs that open and close -/

/-- The table of a program, and the descriptors that are open on the host. -/
structure Files where
  openFilesTable : NachosOpenFilesTable
  descriptors : List Int

inductive FilesCall where
  | Open
  | Socket
  | Close
deriving DecidableEq, Repr

def FilesCall.run (unix : Unix) (others : Others) : FilesCall → Kernel → Except Crash Kernel
  | .Open => Kernel.NachOS_Open unix
  | .Socket => Kernel.NachOS_Socket unix others
  | .Close => Kernel.NachOS_Close unix

/-- A call, with the registers and the memory the program has prepared, what
others have left behind and the answers of the host. -/
structure FilesRequest where
  call : FilesCall
  unix : Unix
  others : Others
  kernel : Kernel

/-- A kernel in front of a call, on the table `t`. -/
def Kernel.facing (k : Kernel) (t : NachosOpenFilesTable) : Kernel :=
  { k with openFilesTable := t, host := [] }

/-- Nobody else has changed the table. -/
def Others.facing (others : Others) (t : NachosOpenFilesTable) : Others :=
  { others with openFilesTable := t }

@[simp] theorem Kernel.openFilesTable_facing (k : Kernel) (t : NachosOpenFilesTable) :
    (k.facing t).openFilesTable = t := rfl

@[simp] theorem Kernel.host_facing (k : Kernel) (t : NachosOpenFilesTable) :
    (k.facing t).host = [] := rfl

@[simp] theorem Others.openFilesTable_facing (others : Others) (t : NachosOpenFilesTable) :
    (others.facing t).openFilesTable = t := rfl

namespace Files

/-- A program before its first call. On the host stdin, stdout and stderr are
open, and `others`. -/
def start (others : List Int) : Files where
  openFilesTable := .new
  descriptors := [0, 1, 2] ++ others

def serve (f : Files) (r : FilesRequest) : Except Crash Kernel :=
  r.call.run r.unix (r.others.facing f.openFilesTable) (r.kernel.facing f.openFilesTable)

def Honest (f : Files) (r : FilesRequest) (k : Kernel) : Prop :=
  ∀ call ∈ k.host, call.Honest r.unix f.descriptors

instance (f : Files) (r : FilesRequest) (k : Kernel) : Decidable (f.Honest r k) :=
  inferInstanceAs (Decidable (∀ call ∈ k.host, _))

def after (f : Files) (r : FilesRequest) (k : Kernel) : Files where
  openFilesTable := k.openFilesTable
  descriptors := k.host.foldl (HostCall.after r.unix) f.descriptors

def step (f : Files) (r : FilesRequest) : Option Files :=
  match f.serve r with
  | .ok k => if f.Honest r k then some (f.after r k) else none
  | .error _ => none

/-- What a step can do. -/
theorem step_cases {f f' : Files} {r : FilesRequest} (h : f.step r = some f') :
    ∃ k, f.serve r = .ok k ∧ f.Honest r k ∧ f' = f.after r k := by
  unfold step at h
  split at h
  case h_1 k hserve =>
    rw [Option.ite_none_right_eq_some] at h
    exact ⟨k, hserve, h.1, (Option.some.inj h.2).symm⟩
  case h_2 => cases h

end Files

/-! ## What a handle stands for -/

namespace Kernel

/-- A call with `h` in register `reg` asks the host once, about `u`, or says
in register 2 that it has done nothing. -/
def Reaches (handler : Unix → Others → Kernel → Except Crash Kernel) (reg : Nat)
    (t : NachosOpenFilesTable) (h : Word) (u : Int) : Prop :=
  ∀ (unix : Unix) (others : Others) (k k' : Kernel), k.ReadRegister reg = h →
    handler unix (others.facing t) (k.facing t) = .ok k' →
    (k'.host = [] ∧ (k'.ReadRegister 2).toInt ≤ 0) ∨ ∃ call, k'.host = [call] ∧ call.On u

/-- The handle `h` stands for the descriptor `u`: in the table, and for a
`Read` or a `Connect` that may follow. -/
structure Denotes (t : NachosOpenFilesTable) (h : Word) (u : Int) : Prop where
  opened : t.isOpened h.toInt = some true
  handle : t.getUnixHandle h.toInt = some u
  reads : Reaches NachOS_Read 6 t h u
  connects : Reaches NachOS_Connect 4 t h u

/-- A `Write` on `h` asks the host once, about `u`, unless a byte of its
buffer cannot be read. -/
def WritesTo (t : NachosOpenFilesTable) (h : Word) (u : Int) : Prop :=
  ∀ (unix : Unix) (others : Others) (k k' : Kernel), k.ReadRegister 6 = h →
    NachOS_Write unix (others.facing t) (k.facing t) = .ok k' →
    (∃ k₁, ((k.facing t).P (others.facing t)).copyIn (k.ReadRegister 4)
        (k.ReadRegister 5).toInt.toNat = .ok (k₁, none)) ∨
      ∃ call, k'.host = [call] ∧ call.On u

/-- The handles that `Write` does not look up. -/
def OnConsole (id : Int) : Prop :=
  id = ConsoleInput ∨ id = ConsoleOutput ∨ id = ConsoleError

/-! ## What the loops over user memory leave alone -/

/-- The table and what was asked of the host are the same. -/
structure SameFiles (k k' : Kernel) : Prop where
  openFilesTable : k'.openFilesTable = k.openFilesTable
  host : k'.host = k.host

theorem SameFiles.readMem {k k₁ : Kernel} (h : SameFiles k k₁) {addr : Word}
    {r : Kernel × Option Word} (hread : k₁.ReadMem addr = .ok r) : SameFiles k r.1 := by
  obtain ⟨m, -, hr⟩ := bind_eq_ok.mp hread
  cases hr
  exact ⟨h.openFilesTable, h.host⟩

theorem SameFiles.writeMem {k k₁ : Kernel} (h : SameFiles k k₁) {addr : Word} {value : Byte}
    {r : Kernel × Bool} (hwrite : k₁.WriteMem addr value = .ok r) : SameFiles k r.1 := by
  obtain ⟨m, -, hr⟩ := bind_eq_ok.mp hwrite
  cases hr
  exact ⟨h.openFilesTable, h.host⟩

theorem SameFiles.refl (k : Kernel) : SameFiles k k :=
  ⟨rfl, rfl⟩

/-! ## What the calls do to the table -/

section

variable {unix : Unix} {others : Others} {k k' : Kernel}

theorem NachOS_Open_files (h : NachOS_Open unix k = .ok k') :
    ∃ path, 0 ≤ unix.openRdWr path ∧ k'.host = k.host ++ [.open path] ∧
      k'.openFilesTable = (k.openFilesTable.Open (unix.openRdWr path)).2 := by
  obtain ⟨r, hname, h⟩ := bind_eq_ok.mp h
  have hr := readName_keeps (P := SameFiles k) (fun h => h.readMem) (.refl k) hname
  obtain ⟨-, -, h⟩ := bind_eq_ok.mp h
  obtain ⟨fd, hopen, h⟩ := bind_eq_ok.mp h
  obtain ⟨_, hfound, hfd⟩ := bind_eq_ok.mp hopen
  cases hfd
  have hnonneg : 0 ≤ unix.openRdWr (r.2.takeWhile (· ≠ 0)) := by
    simpa using check_eq_ok.mp hfound
  rw [if_neg (by omega)] at h
  cases h
  refine ⟨r.2.takeWhile (· ≠ 0), hnonneg, ?_, ?_⟩
  · rw [← hr.host]
    rfl
  · rw [← hr.openFilesTable]
    rfl

theorem NachOS_Socket_files (h : NachOS_Socket unix others k = .ok k') :
    ∃ domain type, k'.host = k.host ++ [.socket domain type] ∧
      ((unix.socket domain type = -1 ∧ k'.ReadRegister 2 = -1 ∧
          k'.openFilesTable = others.openFilesTable) ∨
        (unix.socket domain type ≠ -1 ∧
          k'.ReadRegister 2 = BitVec.ofInt 32 (unix.socket domain type) ∧
          k'.openFilesTable = (others.openFilesTable.Open (unix.socket domain type)).2)) := by
  simp only [NachOS_Socket, Except.ok.injEq] at h
  generalize (if k.ReadRegister 4 = AF_INET_NachOS then AF_INET else AF_INET6) = ipv6 at h
  generalize (if k.ReadRegister 5 = SOCK_STREAM_NachOS then SOCK_STREAM else SOCK_DGRAM) =
    type at h
  subst h
  refine ⟨ipv6, type, ?_⟩
  split
  case isTrue hfailed => exact ⟨rfl, .inl ⟨hfailed, rfl, rfl⟩⟩
  case isFalse hmade => exact ⟨rfl, .inr ⟨hmade, rfl, rfl⟩⟩

theorem NachOS_Close_files (h : NachOS_Close unix k = .ok k') :
    (k'.host = k.host ∧ k'.openFilesTable = k.openFilesTable) ∨
      ∃ i u, k.openFilesTable.isOpened i = some true ∧ u = k.openFilesTable.entry i.toNat ∧
        0 ≤ unix.close u ∧ k'.host = k.host ++ [.close u] ∧
        k'.openFilesTable = (k.openFilesTable.clearBit i.toNat).setEntry u.toNat (-1) := by
  obtain ⟨opened, hopened, h⟩ := bind_eq_ok.mp h
  rw [need_eq_ok] at hopened
  cases opened with
  | false =>
      cases h
      exact .inl ⟨rfl, rfl⟩
  | true =>
      obtain ⟨u, hu, h⟩ := bind_eq_ok.mp h
      obtain ⟨_, hclosed, h⟩ := bind_eq_ok.mp h
      obtain ⟨⟨index, t⟩, hclose, h⟩ := bind_eq_ok.mp h
      cases h
      rw [need_eq_ok, NachosOpenFilesTable.getUnixHandle, Option.ite_none_right_eq_some] at hu
      obtain ⟨-, hu⟩ := hu
      cases hu
      have ht := NachosOpenFilesTable.Close_some hopened (need_eq_ok.mp hclose)
      exact .inr ⟨_, _, hopened, rfl, check_eq_ok.mp hclosed, rfl, ht⟩

end

end Kernel

/-! ## The files of a run -/

namespace Files

/-- Every file is one of the host, and no two are the same. -/
structure Backed (f : Files) : Prop where
  held : ∀ h, f.openFilesTable.isOpened h = some true →
    f.openFilesTable.entry h.toNat ∈ f.descriptors
  once : ∀ h h', f.openFilesTable.isOpened h = some true →
    f.openFilesTable.isOpened h' = some true →
    f.openFilesTable.entry h.toNat = f.openFilesTable.entry h'.toNat → h = h'

variable {t : NachosOpenFilesTable} {descriptors : List Int} {f f' : Files}

theorem backed_start (others : List Int) : Backed (start others) := by
  have hopened : ∀ h : Int, NachosOpenFilesTable.new.isOpened h = some true →
      (h = 0 ∨ h = 1 ∨ h = 2) ∧ NachosOpenFilesTable.new.entry h.toNat = h := by
    intro h hh
    obtain ⟨⟨hnonneg, hlt⟩, hbit, -⟩ := NachosOpenFilesTable.isOpened_eq_true.mp hh
    have hall : ∀ i < MAX_OPEN_FILES, NachosOpenFilesTable.new.bit i = true →
        i < 3 ∧ NachosOpenFilesTable.new.entry i = i := by
      decide
    obtain ⟨hsmall, hentry⟩ := hall h.toNat (by omega) hbit
    omega
  refine ⟨fun i hi => ?_, fun i j hi hj hij => ?_⟩
  · obtain ⟨hsmall, hentry⟩ := hopened i hi
    rw [start, hentry]
    simp only [List.cons_append, List.nil_append, List.mem_cons]
    tauto
  · rw [start, (hopened i hi).2, (hopened j hj).2] at hij
    exact hij

/-- A new descriptor goes to a handle that was not open. -/
theorem Backed.open (hf : Backed ⟨t, descriptors⟩) {u : Int} (hu : u ∉ descriptors) :
    Backed ⟨(t.Open u).2, u :: descriptors⟩ := by
  obtain ⟨i, hi, hclear, hopen⟩ | ⟨hopen, -⟩ := t.Open_cases u
  · have hcases : ∀ h : Int, (t.Open u).2.isOpened h = some true →
        (h = i ∧ (t.Open u).2.entry h.toNat = u) ∨
          (t.isOpened h = some true ∧ (t.Open u).2.entry h.toNat = t.entry h.toNat) := by
      intro h hh
      rw [hopen] at hh ⊢
      rw [NachosOpenFilesTable.isOpened_eq_true] at hh ⊢
      obtain ⟨⟨hnonneg, hlt⟩, hbit, hentry⟩ := hh
      by_cases hhi : h.toNat = i
      · exact .inl ⟨by omega, by simp [hhi, hi]⟩
      · simp only [NachosOpenFilesTable.entry_setEntry, NachosOpenFilesTable.entry_markBit, hhi,
          false_and, if_false] at hentry ⊢
        simp only [NachosOpenFilesTable.bit_setEntry, t.bit_markBit hi, hhi, decide_false,
          Bool.or_false] at hbit
        exact .inr ⟨⟨⟨hnonneg, hlt⟩, hbit, hentry⟩, trivial⟩
    refine ⟨fun h hh => ?_, fun h h' hh hh' heq => ?_⟩
    · obtain ⟨-, hentry⟩ | ⟨hold, hentry⟩ := hcases h hh
      · simp [hentry]
      · simp [hentry, hf.held h hold]
    · -- of an old handle and the new one, the old one would have `u` already
      obtain ⟨rfl, hentry⟩ | ⟨hold, hentry⟩ := hcases h hh <;>
        obtain ⟨rfl, hentry'⟩ | ⟨hold', hentry'⟩ := hcases h' hh'
      · rfl
      · rw [hentry, hentry'] at heq
        exact absurd (heq ▸ hf.held h' hold') hu
      · rw [hentry, hentry'] at heq
        exact absurd (heq ▸ hf.held h hold) hu
      · rw [hentry, hentry'] at heq
        exact hf.once h h' hold hold' heq
  · rw [hopen]
    exact ⟨fun h hh => List.mem_cons_of_mem _ (hf.held h hh), hf.once⟩

/-- The descriptor of a file that is closed is that of no other file. -/
theorem Backed.close (hf : Backed ⟨t, descriptors⟩) {h : Int} (hh : t.isOpened h = some true) :
    Backed ⟨(t.clearBit h.toNat).setEntry (t.entry h.toNat).toNat (-1),
      descriptors.filter (· ≠ t.entry h.toNat)⟩ := by
  have hplace : h.toNat < MAX_OPEN_FILES := by
    obtain ⟨⟨hnonneg, hlt⟩, -⟩ := NachosOpenFilesTable.isOpened_eq_true.mp hh
    omega
  have hcases : ∀ h' : Int,
      ((t.clearBit h.toNat).setEntry (t.entry h.toNat).toNat (-1)).isOpened h' = some true →
        h' ≠ h ∧ t.isOpened h' = some true ∧
          ((t.clearBit h.toNat).setEntry (t.entry h.toNat).toNat (-1)).entry h'.toNat =
            t.entry h'.toNat := by
    intro h' hh'
    rw [NachosOpenFilesTable.isOpened_eq_true] at hh' ⊢
    obtain ⟨hid, hbit, hentry⟩ := hh'
    simp only [NachosOpenFilesTable.bit_setEntry, t.bit_clearBit hplace, Bool.and_eq_true,
      Bool.not_eq_true', decide_eq_false_iff_not] at hbit
    simp only [NachosOpenFilesTable.entry_setEntry, NachosOpenFilesTable.entry_clearBit] at hentry ⊢
    split at hentry
    case isTrue => exact absurd rfl hentry
    case isFalse hother =>
      rw [if_neg hother]
      exact ⟨fun heq => hbit.2 (by rw [heq]), ⟨hid, hbit.1, hentry⟩, rfl⟩
  refine ⟨fun h' hh' => ?_, fun h₁ h₂ h₁' h₂' heq => ?_⟩
  · obtain ⟨hne, hold, hentry⟩ := hcases h' hh'
    rw [hentry, List.mem_filter, decide_eq_true_iff]
    -- no two handles had the descriptor that is filtered out
    exact ⟨hf.held h' hold, fun heq => hne (hf.once h' h hold hh heq)⟩
  · obtain ⟨-, hold₁, hentry₁⟩ := hcases h₁ h₁'
    obtain ⟨-, hold₂, hentry₂⟩ := hcases h₂ h₂'
    rw [hentry₁, hentry₂] at heq
    exact hf.once h₁ h₂ hold₁ hold₂ heq

/-- **One step.** -/
theorem Backed.step {r : FilesRequest} (hf : Backed f) (h : f.step r = some f') : Backed f' := by
  obtain ⟨k, hserve, hhonest, rfl⟩ := step_cases h
  obtain ⟨call, unix, others, kernel⟩ := r
  unfold after
  cases call with
  | Open =>
      obtain ⟨path, hmade, hhost, htable⟩ := Kernel.NachOS_Open_files hserve
      rw [Kernel.host_facing, List.nil_append] at hhost
      rw [htable, hhost]
      have hfresh := hhonest (.open path) (by simp [hhost]) _ rfl
      have hnew : unix.openRdWr path ∉ f.descriptors := by
        rcases hfresh with hfailed | ⟨-, -, hnew⟩
        · omega
        · exact hnew
      simpa [HostCall.after, HostCall.made, hmade] using hf.open hnew
  | Socket =>
      obtain ⟨domain, type, hhost, hresult⟩ := Kernel.NachOS_Socket_files hserve
      rw [Kernel.host_facing, List.nil_append] at hhost
      rw [hhost]
      obtain ⟨hfailed, -, htable⟩ | ⟨hmade, -, htable⟩ := hresult
      · rw [htable]
        have hnone : ¬0 ≤ unix.socket domain type := by
          rw [show unix.socket domain type = -1 from hfailed]
          decide
        simpa [HostCall.after, HostCall.made, hnone] using hf
      · rw [htable]
        obtain hfailed | ⟨hnonneg, -, hnew⟩ :=
          hhonest (.socket domain type) (by simp [hhost]) _ rfl
        · exact absurd hfailed hmade
        · simpa [HostCall.after, HostCall.made, hnonneg] using hf.open hnew
  | Close =>
      obtain ⟨hhost, htable⟩ | ⟨h, u, hopened, rfl, hclosed, hhost, htable⟩ :=
        Kernel.NachOS_Close_files hserve
      · rw [hhost, htable]
        exact hf
      · rw [Kernel.host_facing, List.nil_append] at hhost
        rw [hhost, htable]
        rw [Kernel.openFilesTable_facing] at hopened hclosed ⊢
        simpa [HostCall.after, hclosed] using hf.close hopened

/-- **Every run.** -/
theorem backed_of_run {others : List Int} {requests : List FilesRequest}
    (hrun : exec step (start others) requests = some f) : Backed f :=
  exec_induction (fun hf hstep => hf.step hstep) (backed_start others) hrun

end Files

/-! ## What a socket stands for -/

namespace Kernel

variable {t : NachosOpenFilesTable} {h : Word} {u : Int}

/-- `Connect` takes the handle for a descriptor. -/
theorem connect_reaches (hu : h.toInt = u) : Reaches NachOS_Connect 4 t h u := by
  intro unix others k k' hreg hconnect
  obtain ⟨r, hcopy, hconnect⟩ := bind_eq_ok.mp hconnect
  have hr := copyAddress_keeps (P := SameFiles _) (fun h => h.readMem) (.refl _) hcopy
  have hhost : r.1.host = [] := hr.host
  split at hconnect
  case h_1 =>
    cases hconnect
    exact .inl ⟨hhost, (by decide : (-1 : Word).toInt ≤ 0)⟩
  case h_2 buffer _ =>
    have hid : ((k.facing t).ReadRegister 4).toInt = u := by rw [← hu, ← hreg]; rfl
    rw [Except.ok.injEq, hid] at hconnect
    -- which of the two addresses is asked for does not matter
    generalize (if r.1.IPv6 then AF_INET6 else AF_INET) = domain at hconnect
    generalize (if r.1.IPv6 then [] else buffer) = address at hconnect
    refine .inr ⟨.connect u domain ((k.facing t).ReadRegister 6).toInt address, ?_, rfl⟩
    subst hconnect
    split
    · simp [V, returnFromSystemCall, WriteRegister, ask, hhost]
    · simp [V, returnFromSystemCall, WriteRegister, ask, hhost]

theorem read_reaches (hopened : t.isOpened h.toInt = some true)
    (hu : t.getUnixHandle h.toInt = some u) : Reaches NachOS_Read 6 t h u := by
  intro unix others k k' hreg hread
  rw [NachOS_Read_eq] at hread
  have hid : (k.facing t).ReadRegister 6 = h := hreg
  have htable : (((k.facing t).P (others.facing t)).openFilesTable) = t := rfl
  split at hread
  case isTrue =>
    cases hread
    exact .inl ⟨rfl, (by decide : (-1 : Word).toInt ≤ 0)⟩
  case isFalse =>
    split at hread
    case isTrue =>
      cases hread
      exact .inl ⟨rfl, (by decide : (0 : Word).toInt ≤ 0)⟩
    case isFalse =>
      obtain ⟨opened, ho, hread⟩ := bind_eq_ok.mp hread
      rw [need_eq_ok, htable, hid, hopened] at ho
      cases ho
      rw [if_neg (by decide)] at hread
      obtain ⟨fd, hfd, hread⟩ := bind_eq_ok.mp hread
      rw [need_eq_ok, htable, hid, hu] at hfd
      cases hfd
      obtain ⟨_, -, hread⟩ := bind_eq_ok.mp hread
      refine .inr ⟨.read u ((k.facing t).ReadRegister 5).toInt.toNat, ?_, rfl⟩
      split at hread
      · cases hread
        rfl
      · obtain ⟨r, hcopy, hread⟩ := bind_eq_ok.mp hread
        have hr := copyOut_keeps (P := SameFiles _) (fun h => h.writeMem) (.refl _) hcopy
        split at hread
        · cases hread
          exact hr.host
        · cases hread
          exact hr.host

theorem writesTo_of_file (hopened : t.isOpened h.toInt = some true)
    (hu : t.getUnixHandle h.toInt = some u) (hfile : ¬OnConsole h.toInt) : WritesTo t h u := by
  intro unix others k k' hreg hwrite
  obtain ⟨_, -, hwrite⟩ := bind_eq_ok.mp hwrite
  obtain ⟨⟨k₁, copied⟩, hcopy, hwrite⟩ := bind_eq_ok.mp hwrite
  have hr := copyIn_keeps (P := SameFiles _) (fun h => h.readMem) (.refl _) hcopy
  have hid : (k.facing t).ReadRegister 6 = h := hreg
  simp only [OnConsole, not_or] at hfile
  cases copied with
  | none => exact .inl ⟨k₁, hcopy⟩
  | some buffer =>
      obtain ⟨k₂, hto, hwrite⟩ := bind_eq_ok.mp hwrite
      cases hwrite
      have htable : k₁.openFilesTable = t := hr.openFilesTable
      have hhost : k₁.host = [] := hr.host
      rw [hid, writeTo, if_neg hfile.1, if_neg hfile.2.1, if_neg hfile.2.2] at hto
      dsimp only at hto
      rw [htable] at hto
      obtain ⟨opened, ho, hto⟩ := bind_eq_ok.mp hto
      rw [need_eq_ok, hopened] at ho
      cases ho
      rw [if_neg (by decide)] at hto
      obtain ⟨fd, hfd, hto⟩ := bind_eq_ok.mp hto
      rw [need_eq_ok, hu] at hfd
      cases hfd
      obtain ⟨_, -, hto⟩ := bind_eq_ok.mp hto
      cases hto
      refine .inr ⟨.write u buffer, ?_, rfl⟩
      simp [V, returnFromSystemCall, WriteRegister, ask, hhost]

/-- A `Write` of nothing is enough to see that the handle is not looked up. -/
theorem WritesTo.empty (hwrites : WritesTo t h u) {k : Kernel}
    (hrun : NachOS_Write noFiles (alone.facing t) ((idle.WriteRegister 6 h).facing t) = .ok k) :
    ∃ call, k.host = [call] ∧ call.On u := by
  obtain ⟨k₁, hcopy⟩ | hcalled := hwrites noFiles alone (idle.WriteRegister 6 h) k rfl hrun
  · cases hcopy
  · exact hcalled

theorem not_writesTo_of_console (hconsole : OnConsole h.toInt) : ¬WritesTo t h u := by
  intro hwrites
  rcases hconsole with hinput | houtput | herror
  · obtain rfl : h = 0 := BitVec.eq_of_toInt_eq hinput
    obtain ⟨call, hhost, -⟩ := hwrites.empty rfl
    cases hhost
  · obtain rfl : h = 1 := BitVec.eq_of_toInt_eq houtput
    obtain ⟨call, hhost, hon⟩ := hwrites.empty rfl
    obtain rfl : HostCall.print [] = call := List.singleton_inj.mp hhost
    exact hon
  · obtain rfl : h = 2 := BitVec.eq_of_toInt_eq herror
    obtain ⟨call, hhost, hon⟩ := hwrites.empty rfl
    obtain rfl : HostCall.printInt 0 = call := List.singleton_inj.mp hhost
    exact hon

theorem writesTo_iff (hopened : t.isOpened h.toInt = some true)
    (hu : t.getUnixHandle h.toInt = some u) : WritesTo t h u ↔ ¬OnConsole h.toInt :=
  ⟨fun hwrites hconsole => not_writesTo_of_console hconsole hwrites,
    fun hfile => writesTo_of_file hopened hu hfile⟩

end Kernel

namespace Files

variable {f : Files} {r : FilesRequest} {k : Kernel} {domain type : Int}

/-- A socket that was made: its descriptor is new, is entered in the table,
and is what register 2 has. -/
theorem serve_socket (hcall : r.call = .Socket) (hserve : f.serve r = .ok k)
    (hhonest : f.Honest r k) (hreturned : 0 ≤ (k.ReadRegister 2).toInt)
    (hasked : HostCall.socket domain type ∈ k.host) :
    (k.ReadRegister 2).toInt = r.unix.socket domain type ∧
      r.unix.socket domain type ∉ f.descriptors ∧
      k.openFilesTable = (f.openFilesTable.Open (r.unix.socket domain type)).2 := by
  obtain ⟨call, unix, others, kernel⟩ := r
  cases hcall
  have hanswer := hhonest _ hasked _ rfl
  obtain ⟨domain', type', hhost, hresult⟩ := Kernel.NachOS_Socket_files hserve
  rw [Kernel.host_facing, List.nil_append] at hhost
  rw [hhost, List.mem_singleton] at hasked
  cases hasked
  obtain ⟨-, hfailed, -⟩ | ⟨hmade, hresult, htable⟩ := hresult
  · rw [hfailed] at hreturned
    exact absurd hreturned (by decide)
  · obtain hfailed | ⟨hnonneg, hsmall, hnew⟩ := hanswer
    · exact absurd hfailed hmade
    · refine ⟨?_, hnew, htable⟩
      rw [hresult, BitVec.toInt_ofInt]
      exact Int.bmod_eq_of_le (by omega) (by omega)

/-- A new descriptor that is entered in the table and taken for a handle. -/
theorem Backed.denotes_iff (hf : Backed f) {u : Int} (hnonneg : 0 ≤ u) (hnew : u ∉ f.descriptors)
    (hh : (k.ReadRegister 2).toInt = u) (htable : k.openFilesTable = (f.openFilesTable.Open u).2) :
    Kernel.Denotes k.openFilesTable (k.ReadRegister 2) u ↔ f.openFilesTable.FirstClear u := by
  constructor
  · intro hdenotes
    have hopened := hdenotes.opened
    rw [hh, htable] at hopened
    obtain ⟨hid, hbit, -⟩ := NachosOpenFilesTable.isOpened_eq_true.mp hopened
    have hentry := hdenotes.handle
    rw [hh, htable, NachosOpenFilesTable.getUnixHandle, if_pos hid, Option.some.injEq] at hentry
    -- otherwise `u` was the descriptor of an open file already
    have hnot : ¬(f.openFilesTable.bit u.toNat = true ∧ f.openFilesTable.entry u.toNat = u) := by
      rintro ⟨hbit, hentry⟩
      have hheld := hf.held u
        (NachosOpenFilesTable.isOpened_eq_true.mpr ⟨hid, hbit, by omega⟩)
      rw [hentry] at hheld
      exact hnew hheld
    obtain ⟨i, hfirst, hopen⟩ | ⟨hopen, -⟩ := f.openFilesTable.Open_first u
    · by_cases hui : u = i
      · rwa [hui]
      · have hne : u.toNat ≠ i := by omega
        have hi : i < MAX_OPEN_FILES := by
          obtain ⟨⟨-, hlt⟩, -⟩ := hfirst
          omega
        rw [hopen] at hbit hentry
        simp [f.openFilesTable.bit_markBit hi, hne] at hbit hentry
        exact absurd ⟨hbit, hentry⟩ hnot
    · rw [hopen] at hbit hentry
      exact absurd ⟨hbit, hentry⟩ hnot
  · intro hfirst
    have hid : NachosOpenFilesTable.InTable u := hfirst.1
    obtain ⟨i, hfirst', hopen⟩ | ⟨-, hfull⟩ := f.openFilesTable.Open_first u
    · obtain rfl := hfirst.unique hfirst'
      have hi : i < MAX_OPEN_FILES := by
        obtain ⟨-, hlt⟩ := hid
        omega
      have hopened : k.openFilesTable.isOpened (k.ReadRegister 2).toInt = some true := by
        rw [hh, htable, hopen, NachosOpenFilesTable.isOpened_eq_true]
        simp [hid, f.openFilesTable.bit_markBit hi, hi]
      have hentry : k.openFilesTable.getUnixHandle (k.ReadRegister 2).toInt = some (i : Int) := by
        rw [hh, htable, hopen, NachosOpenFilesTable.getUnixHandle_of_lt _ hi]
        simp [hi]
      exact ⟨hopened, hentry, Kernel.read_reaches hopened hentry, Kernel.connect_reaches hh⟩
    · have hset := hfull u.toNat (by obtain ⟨-, hlt⟩ := hid; omega)
      rw [hfirst.2.1] at hset
      cases hset

/-- **What a socket handle stands for.** After any calls of `Open`, `Socket`
and `Close`, the number that `Socket` returns stands for the socket exactly if
its descriptor is the first handle that was clear; and then `Write` goes there
exactly if it is not a handle of the console. -/
theorem socket_denotes_iff {others : List Int} {requests : List FilesRequest}
    (hrun : exec step (start others) requests = some f) (hcall : r.call = .Socket)
    (hserve : f.serve r = .ok k) (hhonest : f.Honest r k)
    (hreturned : 0 ≤ (k.ReadRegister 2).toInt)
    (hasked : HostCall.socket domain type ∈ k.host) :
    (Kernel.Denotes k.openFilesTable (k.ReadRegister 2) (r.unix.socket domain type) ↔
        f.openFilesTable.FirstClear (r.unix.socket domain type)) ∧
      (Kernel.Denotes k.openFilesTable (k.ReadRegister 2) (r.unix.socket domain type) ∧
          Kernel.WritesTo k.openFilesTable (k.ReadRegister 2) (r.unix.socket domain type) ↔
        f.openFilesTable.FirstClear (r.unix.socket domain type) ∧
          ¬Kernel.OnConsole (r.unix.socket domain type)) := by
  have hf := backed_of_run hrun
  obtain ⟨hh, hnew, htable⟩ := serve_socket hcall hserve hhonest hreturned hasked
  have hdenotes := hf.denotes_iff (hh ▸ hreturned) hnew hh htable
  refine ⟨hdenotes, ?_⟩
  rw [← hdenotes, and_congr_right_iff, ← hh]
  intro h
  exact Kernel.writesTo_iff h.opened h.handle

/-- A call of `Socket` that the host answers with `fd`. -/
def socketRequest (fd : Int) : FilesRequest where
  call := .Socket
  unix := { Kernel.noFiles with socket := fun _ _ => fd }
  others := Kernel.alone
  kernel := Kernel.idle

/-- Two sockets that get 3 and 4 in turn, and can both be used. -/
theorem socket_denotes_inTurn : ∃ f k,
    exec step (start []) [socketRequest 3] = some f ∧
      f.serve (socketRequest 4) = .ok k ∧
      Kernel.Denotes k.openFilesTable (k.ReadRegister 2) 4 ∧
      Kernel.WritesTo k.openFilesTable (k.ReadRegister 2) 4 :=
  ⟨_, _, rfl, rfl,
    (socket_denotes_iff (r := socketRequest 4)
      (rfl : exec step (start []) [socketRequest 3] = some _) rfl rfl (by decide) (by decide)
      (by decide : HostCall.socket Kernel.AF_INET Kernel.SOCK_STREAM ∈ _)).2.mpr
      ⟨⟨by decide, by decide, by decide⟩, by unfold Kernel.OnConsole; decide⟩⟩

/-- Two sockets that get 4 and 3: what is written to the second goes to the
first. -/
theorem socket_not_denotes : ∃ f k,
    exec step (start []) [socketRequest 4] = some f ∧
      f.serve (socketRequest 3) = .ok k ∧ f.Honest (socketRequest 3) k ∧
      HostCall.socket Kernel.AF_INET Kernel.SOCK_STREAM ∈ k.host ∧
      (k.ReadRegister 2).toInt = 3 ∧ k.openFilesTable.isOpened 3 = some true ∧
      k.openFilesTable.getUnixHandle 3 = some 4 ∧
      ¬Kernel.Denotes k.openFilesTable (k.ReadRegister 2) 3 := by
  refine ⟨_, _, rfl, rfl, by decide, by decide, by decide, by decide, by decide, ?_⟩
  intro hdenotes
  have hentry := hdenotes.handle
  revert hentry
  decide

end Files

end DistributedAscii.NachOS
