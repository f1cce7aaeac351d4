import DistributedAscii.NachOS.Driver
import DistributedAscii.NachOS.Filesys.FileHeader

/-!
# NachOS — the synchronous disk

`SynchDisk` of `filesys/synchdisk.cc` over the disk of `machine/disk.cc`: the
driver of a device whose requests do their work at once and take the time
that the head needs. What any number of threads make of the disk is what
`ReadSector` and `WriteSector`, one behind the other, make of it
(`synchronous`), which is the interface that the file system is built on.
-/

namespace DistributedAscii.NachOS.Filesys

open Lib Lib.Runs

def RotationTime : Int := 500
def SeekTime : Int := 500

/-- `machine/disk.h`; `active` from a request to its interrupt. -/
structure DiskDrive where
  sectors : Disk
  active : Bool
  lastSector : Int
  bufferInit : Int

namespace DiskDrive

variable {drive : DiskDrive} {totalTicks newSector : Int} {writing : Bool}

/-- `Disk::Disk`, on a file with the sectors. -/
def new (sectors : Disk) : DiskDrive where
  sectors := sectors
  active := false
  lastSector := 0
  bufferInit := 0

/-! ## The time of a request -/

/-- `TimeToSeek`: the seek, and the rotation to the next sector behind it. -/
def TimeToSeek (drive : DiskDrive) (totalTicks newSector : Int) : Int × Int :=
  let newTrack := newSector.tdiv SectorsPerTrack
  let oldTrack := drive.lastSector.tdiv SectorsPerTrack
  let seek := (newTrack - oldTrack).natAbs * SeekTime
  let «over» := (totalTicks + seek).tmod RotationTime
  (seek, if 0 < «over» then RotationTime - «over» else 0)

def ModuloDiff («to» «from» : Int) : Int :=
  ((«to».tmod SectorsPerTrack - «from».tmod SectorsPerTrack) + SectorsPerTrack).tmod SectorsPerTrack

def ComputeLatency (drive : DiskDrive) (totalTicks newSector : Int) (writing : Bool) : Int :=
  let (seek, rotation) := drive.TimeToSeek totalTicks newSector
  let timeAfter := totalTicks + seek + rotation
  -- the track buffer
  if writing = false ∧ seek = 0 ∧
      ModuloDiff newSector (drive.bufferInit.tdiv RotationTime)
        < (timeAfter - drive.bufferInit).tdiv RotationTime then
    RotationTime
  else
    seek + (rotation + ModuloDiff newSector (timeAfter.tdiv RotationTime) * RotationTime)
      + RotationTime

def UpdateLast (drive : DiskDrive) (totalTicks newSector : Int) : DiskDrive :=
  let (seek, rotate) := drive.TimeToSeek totalTicks newSector
  { drive with
    bufferInit := if seek ≠ 0 then totalTicks + seek + rotate else drive.bufferInit
    lastSector := newSector }

theorem ModuloDiff_nonneg {«to» : Int} (hto : 0 ≤ «to») («from» : Int) :
    0 ≤ ModuloDiff «to» «from» := by
  have hto' := Int.tmod_nonneg SectorsPerTrack hto
  have hfrom' := Int.tmod_lt_of_pos «from» (show (0 : Int) < SectorsPerTrack by decide)
  exact Int.tmod_nonneg _ (by omega)

theorem TimeToSeek_nonneg (drive : DiskDrive) (totalTicks newSector : Int) :
    0 ≤ (drive.TimeToSeek totalTicks newSector).1 ∧
      0 ≤ (drive.TimeToSeek totalTicks newSector).2 := by
  have hover := Int.tmod_lt_of_pos
    (totalTicks + (newSector.tdiv SectorsPerTrack - drive.lastSector.tdiv SectorsPerTrack).natAbs
      * SeekTime) (show 0 < RotationTime by decide)
  simp only [TimeToSeek]
  constructor
  · exact Int.mul_nonneg (Int.natCast_nonneg _) (by decide)
  · split
    · omega
    · exact Int.le_refl 0

/-- **An interrupt is never due at once.** -/
theorem ComputeLatency_pos (drive : DiskDrive) (totalTicks : Int) (hsector : 0 ≤ newSector)
    (writing : Bool) : 0 < drive.ComputeLatency totalTicks newSector writing := by
  obtain ⟨hseek, hrotation⟩ := drive.TimeToSeek_nonneg totalTicks newSector
  have htransfer : 0 < RotationTime := by decide
  simp only [ComputeLatency]
  split
  · exact htransfer
  · have hdiff := ModuloDiff_nonneg hsector ((totalTicks + (drive.TimeToSeek totalTicks newSector).1
      + (drive.TimeToSeek totalTicks newSector).2).tdiv RotationTime)
    have hwait := Int.mul_nonneg hdiff htransfer.le
    omega

/-! ## Requests -/

/-- The end of both requests: `active`, the head, and `Schedule`, which
asserts that its interrupt is to come later. -/
def begin (drive : DiskDrive) (totalTicks sectorNumber ticks : Int) : Option DiskDrive :=
  if 0 < ticks then
    some ({ drive with active := true }.UpdateLast totalTicks sectorNumber)
  else none

def ReadRequest (drive : DiskDrive) (totalTicks sectorNumber : Int) :
    Option (DiskDrive × Sector) := do
  let ticks := drive.ComputeLatency totalTicks sectorNumber false
  if drive.active then none else
  let data ← drive.sectors.ReadSector sectorNumber
  let drive' ← drive.begin totalTicks sectorNumber ticks
  return (drive', data)

def WriteRequest (drive : DiskDrive) (totalTicks sectorNumber : Int) (data : Sector) :
    Option DiskDrive := do
  let ticks := drive.ComputeLatency totalTicks sectorNumber true
  if drive.active then none else
  let sectors ← drive.sectors.WriteSector sectorNumber data
  { drive with sectors := sectors }.begin totalTicks sectorNumber ticks

/-- `HandleInterrupt`, before the handler of `SynchDisk`. -/
def HandleInterrupt (drive : DiskDrive) : DiskDrive :=
  { drive with active := false }

end DiskDrive

/-- `SynchDisk::ReadSector` or `WriteSector`. -/
inductive DiskCall where
  | read (sectorNumber : Int)
  | write (sectorNumber : Int) (data : Sector)

def DiskCall.sectorNumber : DiskCall → Int
  | .read sectorNumber | .write sectorNumber _ => sectorNumber

/-- The disk as a device; what is read is the answer. -/
def diskDevice : Device Int DiskDrive DiskCall (Option Sector) where
  request totalTicks drive
    | .read sectorNumber =>
        (drive.ReadRequest totalTicks sectorNumber).map fun (drive, data) => (drive, some data)
    | .write sectorNumber data =>
        (drive.WriteRequest totalTicks sectorNumber data).map fun drive => (drive, none)
  handleInterrupt := DiskDrive.HandleInterrupt

/-- A call as one step on the sectors. -/
def Disk.call (disk : Disk) : DiskCall → Option (Disk × Option Sector)
  | .read sectorNumber => (disk.ReadSector sectorNumber).map fun data => (disk, some data)
  | .write sectorNumber data => (disk.WriteSector sectorNumber data).map fun disk => (disk, none)

/-- A call and its answer, on the sectors. -/
def Disk.Answers (disk : Disk) (op : DiskCall × Option Sector) (disk' : Disk) : Prop :=
  disk.call op.1 = some (disk', op.2)

/-! ## The device keeps to its contract -/

/-- No request is on its way. -/
def DiskDrive.Idle (drive : DiskDrive) : Prop :=
  drive.active = false

def DiskCall.Valid (call : DiskCall) : Prop :=
  OnDisk call.sectorNumber

namespace DiskDrive

variable {drive drive' : DiskDrive} {sectorNumber : Int}

theorem ReadRequest_eq (h : drive.Idle) (totalTicks : Int) (hdisk : OnDisk sectorNumber) :
    drive.ReadRequest totalTicks sectorNumber
      = some ({ drive with active := true }.UpdateLast totalTicks sectorNumber,
          drive.sectors sectorNumber.toNat) := by
  have hticks := drive.ComputeLatency_pos totalTicks hdisk.1 false
  have hactive : drive.active = false := h
  simp [ReadRequest, hactive, Disk.ReadSector, hdisk, begin, hticks]

theorem WriteRequest_eq (h : drive.Idle) (totalTicks : Int) (hdisk : OnDisk sectorNumber)
    (data : Sector) :
    drive.WriteRequest totalTicks sectorNumber data
      = some ({ drive with
          sectors := Function.update drive.sectors sectorNumber.toNat data
          active := true }.UpdateLast totalTicks sectorNumber) := by
  have hticks := drive.ComputeLatency_pos totalTicks hdisk.1 true
  have hactive : drive.active = false := h
  simp [WriteRequest, hactive, Disk.WriteSector, hdisk, begin, hticks]

theorem sectors_of_begin {totalTicks ticks : Int}
    (h : drive.begin totalTicks sectorNumber ticks = some drive') :
    drive'.sectors = drive.sectors := by
  obtain ⟨-, h⟩ := Option.ite_none_right_eq_some.mp h
  rw [← Option.some.inj h]
  rfl

end DiskDrive

theorem diskDevice_lawful : diskDevice.Lawful DiskDrive.Idle DiskCall.Valid where
  takes totalTicks drive call hidle hvalid := by
    cases call with
    | read sectorNumber =>
        have hdisk : OnDisk sectorNumber := hvalid
        exact ⟨_, _, by simp only [diskDevice, drive.ReadRequest_eq hidle totalTicks hdisk]; rfl,
          rfl⟩
    | write sectorNumber data =>
        have hdisk : OnDisk sectorNumber := hvalid
        exact ⟨_, _,
          by simp only [diskDevice, drive.WriteRequest_eq hidle totalTicks hdisk data]; rfl, rfl⟩

/-- What a request does is what the call does to the sectors. -/
theorem sectors_of_request {drive drive' : DiskDrive} {totalTicks : Int} {call : DiskCall}
    {answer : Option Sector}
    (h : diskDevice.request totalTicks drive call = some (drive', answer)) :
    drive.sectors.call call = some (drive'.sectors, answer) := by
  cases call with
  | read sectorNumber =>
      obtain ⟨⟨drive'', data⟩, hread, heq⟩ := Option.map_eq_some_iff.mp h
      cases heq
      simp only [DiskDrive.ReadRequest] at hread
      split at hread
      · cases hread
      · obtain ⟨data', hdata, hread⟩ := Option.bind_eq_some_iff.mp hread
        obtain ⟨drive'', hbegin, hread⟩ := Option.bind_eq_some_iff.mp hread
        cases hread
        rw [Disk.call, hdata, DiskDrive.sectors_of_begin hbegin]
        rfl
  | write sectorNumber data =>
      obtain ⟨drive'', hwrite, heq⟩ := Option.map_eq_some_iff.mp h
      cases heq
      simp only [DiskDrive.WriteRequest] at hwrite
      split at hwrite
      · cases hwrite
      · obtain ⟨sectors, hsectors, hbegin⟩ := Option.bind_eq_some_iff.mp hwrite
        rw [Disk.call, hsectors, DiskDrive.sectors_of_begin hbegin]
        rfl

/-- The interrupt leaves the sectors alone. -/
theorem answers_of_serves {drive drive' : DiskDrive} {op : DiskCall × Option Sector}
    (h : diskDevice.Serves drive op drive') : drive.sectors.Answers op drive'.sectors := by
  obtain ⟨totalTicks, h⟩ := h
  obtain ⟨⟨drive'', answer⟩, hrequest, heq⟩ := Option.map_eq_some_iff.mp h
  cases heq
  have hcall := sectors_of_request hrequest
  exact hcall

/-! ## The synchronous disk -/

abbrev SynchDisk := Driver DiskDrive DiskCall (Option Sector)

namespace SynchDisk

abbrev Event := Driver.Event Int DiskCall

/-- `SynchDisk::SynchDisk`. -/
def new (disk : Disk) : SynchDisk :=
  .start (.new disk)

/-- The requests are the `log`; the sectors are where its calls lead; each
thread gets its answers in order; no `ASSERT` fails; and at rest no call is
left. -/
structure Synchronous (disk : Disk) (s : SynchDisk) : Prop where
  alive : s.monitor.failed = false ∧ s.failed = false
  sectors : Linear.Replay Disk.Answers disk s.log s.hardware.sectors
  completed : ∀ t call answer, s.point t = .answered call answer → s.hardware.active = false
  answers : ∀ t, Linear.ofThread t s.log = Linear.ofThread t s.returned ++ (s.point t).unreturned
  rest : s.monitor.AtRest → s.pending = 0 → ∀ t, s.point t = .outside

/-- **`ReadSector` and `WriteSector` are atomic.** Whatever the threads do,
and whenever the interrupts come, the disk is one that the calls reach one
behind the other, in an order in which a call that has returned stands in
front of the later ones. -/
theorem synchronous {disk : Disk} {events : List Event} {s : SynchDisk}
    (hvalid : Driver.ValidCalls DiskCall.Valid events)
    (hrun : exec (Driver.step diskDevice) (new disk) events = some s) :
    s.Synchronous disk ∧ ∀ front back, events = front ++ back → ∀ s₁,
      exec (Driver.step diskDevice) (new disk) front = some s₁ → s₁.log <+: s.log := by
  have hidle : (DiskDrive.new disk).Idle := rfl
  have hsound := Driver.sound_of_exec diskDevice_lawful hidle hvalid hrun
  have hatomic := hsound.atomic
  refine ⟨⟨hatomic.alive, ?_, ?_, hatomic.answers, hatomic.rest⟩, ?_⟩
  · have hsettled : (Driver.settled diskDevice s).sectors = s.hardware.sectors := by
      rw [Driver.settled]
      split <;> rfl
    have hcalls := hsound.replayed.map (f := DiskDrive.sectors) answers_of_serves
    rwa [hsettled] at hcalls
  · intro t call answer hpoint
    have hfits : Driver.Fits (.answered call answer) _ _ := hpoint ▸ hsound.fitting t
    have hquiet := hsound.stage.quiet_of_holding hsound.fitting hsound.monitor hfits.of_answered.2
      (fun call' answer' hwaiting => by cases hpoint.symm.trans hwaiting)
    exact hquiet.2.2.2
  · rintro front back rfl s₁ hfront
    rw [exec_append, hfront] at hrun
    exact Driver.log_of_exec hrun

/-- Thread 0 writes sector 3, and thread 1 waits for the lock to read it. -/
def writeAndRead : List Event :=
  [.ready 1, .acquire 0 (.write 3 (.ofBytes [7])), .request 0 10, .yield 0, .acquire 1 (.read 3),
    .dispatch, .wait 0, .interrupt, .dispatch, .wait 0, .release 0, .leave 0, .yield 0, .resume 1,
    .request 1 1600, .interrupt, .wait 1, .release 1, .leave 1]

theorem synchronous_writeAndRead :
    ∃ s, exec (Driver.step diskDevice) (new fun _ => .ofBytes []) writeAndRead = some s ∧
      (s.returned.map fun entry => (entry.1, entry.2.2.map fun data => data.bytes.take 2))
        = [(0, none), (1, some [7, 0])] ∧
      Synchronous (fun _ => .ofBytes []) s := by
  have hreturned : (exec (Driver.step diskDevice) (new fun _ => .ofBytes []) writeAndRead).map
      (fun s => s.returned.map fun entry => (entry.1, entry.2.2.map fun data => data.bytes.take 2))
        = some [(0, none), (1, some [7, 0])] := by
    decide +kernel
  have hvalid : Driver.ValidCalls DiskCall.Valid writeAndRead := by
    intro t call hmem
    simp only [writeAndRead, List.mem_cons, reduceCtorEq, Driver.Event.acquire.injEq,
      List.not_mem_nil, or_false, false_or] at hmem
    rcases hmem with ⟨-, rfl⟩ | ⟨-, rfl⟩
    · exact (by decide : OnDisk 3)
    · exact (by decide : OnDisk 3)
  obtain ⟨s, hrun, hreturned⟩ := Option.map_eq_some_iff.mp hreturned
  exact ⟨s, hrun, hreturned, (synchronous hvalid hrun).1⟩

end SynchDisk

end DistributedAscii.NachOS.Filesys
