import DistributedAscii.Lib.Linear
import DistributedAscii.NachOS.Clients

/-!
# NachOS — one request at a time

A device takes a request at once, and its interrupt comes later. `SynchDisk`
and the sending half of `PostOffice` make a call of it in the same way: the
lock, the request, `P` of a semaphore that the handler of the interrupt will
`V`, and the lock back. Whatever the threads and the interrupts do, the calls
are as if one came behind the other (`Atomic`), and the CPU only comes to rest
when all of them have returned (`AtRest.outside`).

Added to the program: the `log` of the requests that the device has taken,
and those that have `returned`.
-/

namespace DistributedAscii.NachOS

open Lib Lib.Runs

/-- What a device does on a request under the `outer` conditions of the
moment, none if an `ASSERT` fails, and what the handler of its interrupt does
to it. -/
structure Device (ε σ ρ α : Type*) where
  request : ε → σ → ρ → Option (σ × α)
  handleInterrupt : σ → σ

variable {ε σ ρ α : Type*}

/-- The request and its interrupt in one. -/
def Device.atOnce (device : Device ε σ ρ α) (outer : ε) (hardware : σ) (request : ρ) :
    Option (σ × α) :=
  (device.request outer hardware request).map fun (hardware', answer) =>
    (device.handleInterrupt hardware', answer)

/-- The same, whatever the conditions. -/
def Device.Serves (device : Device ε σ ρ α) (hardware : σ) (op : ρ × α) (hardware' : σ) : Prop :=
  ∃ outer, device.atOnce outer hardware op.1 = some (hardware', op.2)

/-- An idle device takes every valid request, and is idle again behind the
interrupt. -/
structure Device.Lawful (device : Device ε σ ρ α) (Idle : σ → Prop) (Valid : ρ → Prop) :
    Prop where
  takes : ∀ outer {hardware request}, Idle hardware → Valid request →
    ∃ hardware' answer, device.request outer hardware request = some (hardware', answer) ∧
      Idle (device.handleInterrupt hardware')

/-- Where a thread is in a call: behind a statement of it, with what it asked
and what came back. -/
inductive DriverPoint (ρ α : Type*) where
  | outside
  | inAcquire (request : ρ)
  | waiting (request : ρ) (answer : α)
  | answered (request : ρ) (answer : α)
  | inRelease (request : ρ) (answer : α)

/-- The request that the device has taken, before the return. -/
def DriverPoint.unreturned : DriverPoint ρ α → List (ρ × α)
  | .waiting request answer | .answered request answer | .inRelease request answer =>
      [(request, answer)]
  | .outside | .inAcquire _ => []

/-- `pending` is the number of interrupts to come. -/
structure Driver (σ ρ α : Type*) where
  monitor : Monitor
  semaphore : Semaphore
  hardware : σ
  pending : Nat
  point : Tid → DriverPoint ρ α
  failed : Bool
  log : List (Tid × ρ × α)
  returned : List (Tid × ρ × α)

namespace Driver

/-- The first five are the scheduler's and the lock's; the others are the
statements of a call in their order, `leave` the return, and the interrupt. -/
inductive Event (ε ρ : Type*) where
  | dispatch
  | ready (t : Tid)
  | yield (t : Tid)
  | sleep (t : Tid)
  | resume (t : Tid)
  | acquire (t : Tid) (request : ρ)
  | request (t : Tid) (outer : ε)
  | wait (t : Tid)
  | release (t : Tid)
  | leave (t : Tid)
  | interrupt

/-- `new Lock` and `new Semaphore(…, 0)`. -/
def start (hardware : σ) : Driver σ ρ α where
  monitor := .start
  semaphore := ⟨0, []⟩
  hardware := hardware
  pending := 0
  point _ := .outside
  failed := false
  log := []
  returned := []

def moveTo (s : Driver σ ρ α) (t : Tid) (p : DriverPoint ρ α) : Driver σ ρ α :=
  { s with point := Function.update s.point t p }

/-- An event of the lock or the scheduler, if it is possible. -/
def perform (s : Driver σ ρ α) (e : Monitor.Event) : Option (Driver σ ρ α) :=
  (s.monitor.step e).map fun monitor => { s with monitor }

/-- The device gets the request, and the interrupt is scheduled. -/
def ask (device : Device ε σ ρ α) (s : Driver σ ρ α) (t : Tid) (outer : ε) (request : ρ) :
    Driver σ ρ α :=
  match device.request outer s.hardware request with
  | none => { s with failed := true }
  | some (hardware, answer) =>
      { s.moveTo t (.waiting request answer) with
        hardware := hardware
        pending := s.pending + 1
        log := s.log ++ [(t, request, answer)] }

/-- `semaphore->P()`, from its test on. -/
def P (s : Driver σ ρ α) (t : Tid) (request : ρ) (answer : α) : Option (Driver σ ρ α) :=
  let r := s.semaphore.P t
  if r.2 then some { s.moveTo t (.answered request answer) with semaphore := r.1 }
  else { s with semaphore := r.1 }.perform (.sleep t)

/-- The handler of the interrupt, with its `V`. -/
def handle (device : Device ε σ ρ α) (s : Driver σ ρ α) : Driver σ ρ α :=
  { s with
    hardware := device.handleInterrupt s.hardware
    pending := s.pending - 1
    semaphore := s.semaphore.V.1
    monitor := { s.monitor with scheduler := s.monitor.scheduler.wake s.semaphore.V.2 } }

/-- One statement of a thread, or an interrupt. Threads that sleep or wake up
elsewhere are not in a call. -/
def step (device : Device ε σ ρ α) (s : Driver σ ρ α) (e : Event ε ρ) :
    Option (Driver σ ρ α) :=
  if s.failed then none else
  match e with
  | .dispatch => s.perform .dispatch
  | .ready t =>
      match s.point t with
      | .outside => s.perform (.ready t)
      | _ => none
  | .yield t => s.perform (.yield t)
  | .sleep t =>
      match s.point t with
      | .outside => s.perform (.sleep t)
      | _ => none
  | .resume t => s.perform (.resume t)
  | .acquire t request =>
      match s.point t with
      | .outside => (s.moveTo t (.inAcquire request)).perform (.acquire t)
      | _ => none
  | .request t outer =>
      match s.point t with
      | .inAcquire request =>
          if s.monitor.Runs t then some (ask device s t outer request) else none
      | _ => none
  | .wait t =>
      match s.point t with
      | .waiting request answer => if s.monitor.Runs t then s.P t request answer else none
      | _ => none
  | .release t =>
      match s.point t with
      | .answered request answer => (s.moveTo t (.inRelease request answer)).perform (.release t)
      | _ => none
  | .leave t =>
      match s.point t with
      | .inRelease request answer =>
          if s.monitor.Runs t then
            some { s.moveTo t .outside with returned := s.returned ++ [(t, request, answer)] }
          else none
      | _ => none
  | .interrupt => if 0 < s.pending then some (handle device s) else none

section Updates

variable (s : Driver σ ρ α) (t : Tid) (p : DriverPoint ρ α)

@[simp] theorem moveTo_monitor : (s.moveTo t p).monitor = s.monitor := rfl

@[simp] theorem moveTo_point_self : (s.moveTo t p).point t = p :=
  Function.update_self ..

theorem moveTo_point_of_ne {u : Tid} (hu : u ≠ t) : (s.moveTo t p).point u = s.point u :=
  Function.update_of_ne hu ..

end Updates

/-! ## What an event does -/

/-- What an event does, case by case. -/
inductive Does (device : Device ε σ ρ α) (s : Driver σ ρ α) :
    Event ε ρ → Driver σ ρ α → Prop where
  | background {e e' monitor}
      (hbackground : Monitor.Background (fun t => ¬s.point t ≠ .outside) e')
      (hstep : s.monitor.step e' = some monitor) : Does device s e { s with monitor }
  | acquire {t request monitor} (hpoint : s.point t = .outside)
      (hstep : s.monitor.step (.acquire t) = some monitor) :
      Does device s (.acquire t request) { s.moveTo t (.inAcquire request) with monitor }
  | request {t outer request} (hruns : s.monitor.Runs t)
      (hpoint : s.point t = .inAcquire request) :
      Does device s (.request t outer) (ask device s t outer request)
  | through {t request answer} (hruns : s.monitor.Runs t)
      (hpoint : s.point t = .waiting request answer) (hvalue : s.semaphore.value ≠ 0) :
      Does device s (.wait t) { s.moveTo t (.answered request answer) with
        semaphore := { s.semaphore with value := wrap32 (s.semaphore.value - 1) } }
  | asleep {t request answer monitor} (hruns : s.monitor.Runs t)
      (hpoint : s.point t = .waiting request answer) (hvalue : s.semaphore.value = 0)
      (hstep : s.monitor.step (.sleep t) = some monitor) :
      Does device s (.wait t) { s with
        semaphore := ⟨0, s.semaphore.queue ++ [t]⟩, monitor }
  | release {t request answer monitor} (hpoint : s.point t = .answered request answer)
      (hstep : s.monitor.step (.release t) = some monitor) :
      Does device s (.release t) { s.moveTo t (.inRelease request answer) with monitor }
  | leave {t request answer} (hruns : s.monitor.Runs t)
      (hpoint : s.point t = .inRelease request answer) :
      Does device s (.leave t) { s.moveTo t .outside with
        returned := s.returned ++ [(t, request, answer)] }
  | interrupt (hpending : 0 < s.pending) : Does device s .interrupt (handle device s)

section Does

variable {device : Device ε σ ρ α} {s s' : Driver σ ρ α} {e : Event ε ρ}

theorem perform_eq_some {e : Monitor.Event} (h : s.perform e = some s') :
    ∃ monitor, s.monitor.step e = some monitor ∧ s' = { s with monitor } := by
  obtain ⟨monitor, hstep, rfl⟩ := Option.map_eq_some_iff.mp h
  exact ⟨monitor, hstep, rfl⟩

theorem does_of_background {e' : Monitor.Event}
    (hbackground : Monitor.Background (fun t => ¬s.point t ≠ .outside) e')
    (h : s.perform e' = some s') : Does device s e s' := by
  obtain ⟨monitor, hstep, rfl⟩ := perform_eq_some h
  exact .background hbackground hstep

theorem does_of_step (h : step device s e = some s') :
    s.failed = false ∧ Does device s e s' := by
  unfold step at h
  split at h
  case isTrue => cases h
  case isFalse hfailed =>
    refine ⟨by simpa using hfailed, ?_⟩
    cases e with
    | dispatch => exact does_of_background .dispatch h
    | ready t =>
        simp only at h
        split at h
        · exact does_of_background (.ready (not_not.mpr ‹_›)) h
        · cases h
    | yield t => exact does_of_background .yield h
    | sleep t =>
        simp only at h
        split at h
        · exact does_of_background (.sleep (not_not.mpr ‹_›)) h
        · cases h
    | resume t => exact does_of_background .resume h
    | acquire t request =>
        simp only at h
        split at h
        · obtain ⟨monitor, hstep, rfl⟩ := perform_eq_some h
          exact .acquire ‹_› hstep
        · cases h
    | request t outer =>
        simp only at h
        split at h
        · obtain ⟨hruns, h⟩ := Option.ite_none_right_eq_some.mp h
          cases h
          exact .request hruns ‹_›
        · cases h
    | wait t =>
        simp only at h
        split at h
        · obtain ⟨hruns, h⟩ := Option.ite_none_right_eq_some.mp h
          by_cases hvalue : s.semaphore.value = 0
          · simp only [P, Semaphore.P, hvalue, if_pos, Bool.false_eq_true, if_false] at h
            obtain ⟨monitor, hstep, rfl⟩ := perform_eq_some h
            exact .asleep hruns ‹_› hvalue hstep
          · simp only [P, Semaphore.P, if_neg hvalue, if_pos] at h
            cases h
            exact .through hruns ‹_› hvalue
        · cases h
    | release t =>
        simp only at h
        split at h
        · obtain ⟨monitor, hstep, rfl⟩ := perform_eq_some h
          exact .release ‹_› hstep
        · cases h
    | leave t =>
        simp only at h
        split at h
        · obtain ⟨hruns, h⟩ := Option.ite_none_right_eq_some.mp h
          cases h
          exact .leave hruns ‹_›
        · cases h
    | interrupt =>
        obtain ⟨hpending, h⟩ := Option.ite_none_right_eq_some.mp h
        cases h
        exact .interrupt hpending

end Does

/-! ## Where the threads are -/

/-- The operation of the lock that goes with a place in a call, and whether
the lock is held there. -/
inductive Fits : DriverPoint ρ α → CallPoint → Bool → Prop where
  | outside : Fits .outside .outside false
  | asking {request} : Fits (.inAcquire request) (.inP none) false
  | acquired {request} : Fits (.inAcquire request) .outside true
  | waiting {request answer} : Fits (.waiting request answer) .outside true
  | answered {request answer} : Fits (.answered request answer) .outside true
  | released {request answer} : Fits (.inRelease request answer) .outside false

namespace Fits

variable {p : DriverPoint ρ α} {c : CallPoint} {b : Bool} {request : ρ} {answer : α}

theorem of_outside (h : Fits (.outside : DriverPoint ρ α) c b) : c = .outside ∧ b = false := by
  cases h
  exact ⟨rfl, rfl⟩

theorem of_waiting (h : Fits (.waiting request answer) c b) : c = .outside ∧ b = true := by
  cases h
  exact ⟨rfl, rfl⟩

theorem of_answered (h : Fits (.answered request answer) c b) : c = .outside ∧ b = true := by
  cases h
  exact ⟨rfl, rfl⟩

theorem of_acquired (h : Fits (.inAcquire request : DriverPoint ρ α) .outside b) : b = true := by
  cases h
  rfl

theorem of_released (h : Fits (.inRelease request answer) c b) : c = .outside ∧ b = false := by
  cases h
  exact ⟨rfl, rfl⟩

theorem call_of_holding (h : Fits p c true) : c = .outside := by
  cases h <;> rfl

theorem not_inWait (h : Fits p c b) {d : Nat} : c ≠ .inWait d := by
  cases h <;> simp

theorem resumable : Monitor.Resumable (Fits : DriverPoint ρ α → CallPoint → Bool → Prop) := by
  intro p c b wait h hwait
  cases h with
  | asking =>
      obtain rfl : none = wait := by simpa using hwait
      exact ⟨rfl, .asking, .acquired⟩
  | outside | acquired | waiting | answered | released => simp at hwait

end Fits

/-- Every thread is in the operation that its place tells. -/
def Fitting (s : Driver σ ρ α) : Prop :=
  Monitor.Fitting Fits s.point s.monitor

namespace Fitting

variable {s s' : Driver σ ρ α} {t : Tid}

theorem step {device : Device ε σ ρ α} {e : Event ε ρ} (h : s.Fitting) (hm : s.monitor.Sound)
    (hdoes : Does device s e s') : s'.Fitting := by
  cases hdoes with
  | background hbackground hstep =>
      exact h.background Fits.resumable hbackground (Monitor.does_of_step hstep).2
  | @acquire t request monitor hpoint hstep =>
      obtain ⟨-, hdoes⟩ := Monitor.does_of_step hstep
      cases hdoes with
      | acquire =>
          exact h.acquire (hpoint ▸ h t : Fits .outside _ _).of_outside.2 .asking .acquired
  | @request t outer request hruns hpoint =>
      have hfits : Fits (.inAcquire request) .outside _ := hpoint ▸ hruns.2 ▸ h t
      unfold ask
      split
      · exact h
      · refine h.moveTo ?_
        rw [hruns.2, hfits.of_acquired]
        exact .waiting
  | @through t request answer hruns hpoint hvalue =>
      obtain ⟨hcall, hholding⟩ := (hpoint ▸ h t : Fits (.waiting request answer) _ _).of_waiting
      refine h.moveTo ?_
      rw [hcall, hholding]
      exact .answered
  | asleep hruns hpoint hvalue hstep =>
      obtain ⟨-, hdoes⟩ := Monitor.does_of_step hstep
      cases hdoes
      exact h.idle rfl rfl
  | @release t request answer monitor hpoint hstep =>
      obtain ⟨hcall, hholding⟩ := (hpoint ▸ h t : Fits (.answered request answer) _ _).of_answered
      obtain ⟨-, hdoes⟩ := Monitor.does_of_step hstep
      cases hdoes
      exact h.release ((hm.locked.owner t).mpr hholding) hcall .released
  | @leave t request answer hruns hpoint =>
      obtain ⟨hcall, hholding⟩ := (hpoint ▸ h t : Fits (.inRelease request answer) _ _).of_released
      refine h.moveTo ?_
      rw [hcall, hholding]
      exact .outside
  | interrupt => exact h.idle rfl rfl

theorem holding (h : s.Fitting) {request : ρ} {answer : α}
    (hpoint : s.point t = .waiting request answer) : s.monitor.holding t = true :=
  (hpoint ▸ h t : Fits (.waiting request answer) _ _).of_waiting.2

theorem call (h : s.Fitting) {request : ρ} {answer : α}
    (hpoint : s.point t = .waiting request answer) : s.monitor.callPoint t = .outside :=
  (hpoint ▸ h t : Fits (.waiting request answer) _ _).of_waiting.1

/-- The holder of the lock is in a call, and in no operation. -/
theorem inside_of_holding (h : s.Fitting) (hholding : s.monitor.holding t = true) :
    s.point t ≠ .outside ∧ s.monitor.callPoint t = .outside := by
  have hfits : Fits _ _ true := hholding ▸ h t
  refine ⟨fun hpoint => ?_, hfits.call_of_holding⟩
  cases (hpoint ▸ hfits : Fits .outside _ true).of_outside.2

end Fitting

/-! ## How far the request is -/

section Stage

variable {device : Device ε σ ρ α} {Idle : σ → Prop} {Valid : ρ → Prop} {s s' : Driver σ ρ α}
  {t : Tid}

/-- No request, or one whose interrupt is to come, its thread asleep for it or
not yet, or one that is done. -/
inductive Stage (device : Device ε σ ρ α) (Idle : σ → Prop) (s : Driver σ ρ α) : Prop where
  | quiet (hpoint : ∀ t request answer, s.point t ≠ .waiting request answer)
      (hpending : s.pending = 0) (hsemaphore : s.semaphore = ⟨0, []⟩) (hidle : Idle s.hardware)
  | busy {t request answer} (hpoint : s.point t = .waiting request answer)
      (hpending : s.pending = 1) (hsemaphore : s.semaphore = ⟨0, []⟩)
      (hidle : Idle (device.handleInterrupt s.hardware))
  | asleep {t request answer} (hpoint : s.point t = .waiting request answer)
      (hblocked : s.monitor.scheduler.status t = .BLOCKED) (hpending : s.pending = 1)
      (hsemaphore : s.semaphore = ⟨0, [t]⟩) (hidle : Idle (device.handleInterrupt s.hardware))
  | done {t request answer} (hpoint : s.point t = .waiting request answer)
      (hpending : s.pending = 0) (hsemaphore : s.semaphore = ⟨1, []⟩) (hidle : Idle s.hardware)

namespace Stage

theorem start {hardware : σ} (hidle : Idle hardware) :
    Stage device Idle (Driver.start hardware : Driver σ ρ α) :=
  .quiet (fun _ _ _ h => nomatch h) rfl rfl hidle

/-- Nothing changes for a thread behind a request. -/
theorem keep (h : Stage device Idle s) (hpending : s'.pending = s.pending)
    (hsemaphore : s'.semaphore = s.semaphore) (hhardware : s'.hardware = s.hardware)
    (hpoint : ∀ t request answer,
      s'.point t = .waiting request answer ↔ s.point t = .waiting request answer)
    (hblocked : ∀ t request answer, s.point t = .waiting request answer →
      s.monitor.scheduler.status t = .BLOCKED → s'.monitor.scheduler.status t = .BLOCKED) :
    Stage device Idle s' := by
  cases h with
  | quiet hnone hp hs hidle =>
      exact .quiet (fun t request answer => (hpoint ..).not.mpr (hnone _ _ _)) (hpending.trans hp)
        (hsemaphore.trans hs) (hhardware ▸ hidle)
  | busy hwaiting hp hs hidle =>
      exact .busy ((hpoint ..).mpr hwaiting) (hpending.trans hp) (hsemaphore.trans hs)
        (hhardware ▸ hidle)
  | asleep hwaiting hst hp hs hidle =>
      exact .asleep ((hpoint ..).mpr hwaiting) (hblocked _ _ _ hwaiting hst) (hpending.trans hp)
        (hsemaphore.trans hs) (hhardware ▸ hidle)
  | done hwaiting hp hs hidle =>
      exact .done ((hpoint ..).mpr hwaiting) (hpending.trans hp) (hsemaphore.trans hs)
        (hhardware ▸ hidle)

/-- A thread moves between places that are not behind a request. -/
theorem waiting_moveTo_iff {p : DriverPoint ρ α}
    (hp : ∀ request answer, p ≠ .waiting request answer)
    (hpoint : ∀ request answer, s.point t ≠ .waiting request answer) (u : Tid) (request : ρ)
    (answer : α) : (s.moveTo t p).point u = .waiting request answer
      ↔ s.point u = .waiting request answer := by
  by_cases hu : u = t
  · subst hu
    rw [moveTo_point_self]
    exact iff_of_false (hp _ _) (hpoint _ _)
  · rw [moveTo_point_of_ne s t p hu]

/-- The holder of the lock, before or behind its request, is the only one. -/
theorem quiet_of_holding (h : Stage device Idle s) (hfit : s.Fitting) (hm : s.monitor.Sound)
    (ht : s.monitor.holding t = true)
    (hpoint : ∀ request answer, s.point t ≠ .waiting request answer) :
    (∀ u request answer, s.point u ≠ .waiting request answer) ∧ s.pending = 0 ∧
      s.semaphore = ⟨0, []⟩ ∧ Idle s.hardware := by
  have hnone : ∀ u request answer, s.point u ≠ .waiting request answer := by
    intro u request answer hu
    obtain rfl := hm.correct.exclusive _ _ ht (hfit.holding hu)
    exact hpoint request answer hu
  cases h with
  | quiet hnone' hp hs hidle => exact ⟨hnone, hp, hs, hidle⟩
  | busy hwaiting => exact absurd hwaiting (hnone _ _ _)
  | asleep hwaiting => exact absurd hwaiting (hnone _ _ _)
  | done hwaiting => exact absurd hwaiting (hnone _ _ _)

theorem request (h : Stage device Idle s) (hlawful : device.Lawful Idle Valid) (hfit : s.Fitting)
    (hm : s.monitor.Sound) {request : ρ} (hvalid : Valid request) (hruns : s.monitor.Runs t)
    (hpoint : s.point t = .inAcquire request) (outer : ε) :
    Stage device Idle (ask device s t outer request) := by
  have hfits : Fits (.inAcquire request) .outside _ := hpoint ▸ hruns.2 ▸ hfit t
  obtain ⟨-, hpending, hsemaphore, hidle⟩ := h.quiet_of_holding hfit hm hfits.of_acquired
    (fun request answer hwaiting => by cases hpoint.symm.trans hwaiting)
  obtain ⟨hardware, answer, htaken, hagain⟩ := hlawful.takes outer hidle hvalid
  rw [ask, htaken]
  exact .busy (moveTo_point_self s t _) (by rw [hpending]) hsemaphore hagain

theorem through (h : Stage device Idle s) (hfit : s.Fitting) (hm : s.monitor.Sound) {request : ρ}
    {answer : α} (hpoint : s.point t = .waiting request answer) (hvalue : s.semaphore.value ≠ 0) :
    Stage device Idle { s.moveTo t (.answered request answer) with
      semaphore := { s.semaphore with value := wrap32 (s.semaphore.value - 1) } } := by
  cases h with
  | quiet hnone => exact absurd hpoint (hnone _ _ _)
  | busy _ _ hsemaphore => exact absurd (congrArg Semaphore.value hsemaphore) hvalue
  | asleep _ _ _ hsemaphore => exact absurd (congrArg Semaphore.value hsemaphore) hvalue
  | done _ hpending hsemaphore hidle =>
      refine .quiet (fun u request' answer' hu => ?_) hpending ?_ hidle
      · by_cases hut : u = t
        · subst hut
          simp at hu
        · rw [show Driver.point _ u = (s.moveTo t (.answered request answer)).point u from rfl,
            moveTo_point_of_ne s t _ hut] at hu
          exact hut (hm.correct.exclusive _ _ (hfit.holding hu) (hfit.holding hpoint))
      · rw [hsemaphore]
        rfl

theorem sleep (h : Stage device Idle s) (hfit : s.Fitting) (hm : s.monitor.Sound) {request : ρ}
    {answer : α} (hpoint : s.point t = .waiting request answer) (hvalue : s.semaphore.value = 0)
    {monitor : Monitor} (hruns : s.monitor.Runs t) (hdoes : s.monitor.Does (.sleep t) monitor) :
    Stage device Idle { s with semaphore := ⟨0, s.semaphore.queue ++ [t]⟩, monitor } := by
  cases hdoes
  cases h with
  | quiet hnone => exact absurd hpoint (hnone _ _ _)
  | busy _ hpending hsemaphore hidle =>
      refine .asleep hpoint ?_ hpending ?_ hidle
      · simp [Scheduler.Sleep]
      · rw [hsemaphore]
        rfl
  | asleep hwaiting hblocked =>
      -- it would be the one on the CPU
      obtain rfl := hm.correct.exclusive _ _ (hfit.holding hpoint) (hfit.holding hwaiting)
      cases hblocked.symm.trans (hm.scheduled.status_of_current hruns.1)
  | done _ _ hsemaphore =>
      rw [hsemaphore] at hvalue
      cases hvalue

theorem interrupt (h : Stage device Idle s) (hpending : 0 < s.pending) :
    Stage device Idle (handle device s) := by
  cases h with
  | quiet _ hp => exact absurd hp (by omega)
  | busy hpoint hp hsemaphore hidle =>
      refine .done hpoint ?_ ?_ hidle
      · rw [handle, hp]
      · rw [handle, hsemaphore]
        rfl
  | asleep hpoint _ hp hsemaphore hidle =>
      refine .done hpoint ?_ ?_ hidle
      · rw [handle, hp]
      · rw [handle, hsemaphore]
        rfl
  | done _ hp => exact absurd hp (by omega)

theorem step {e : Event ε ρ} (h : Stage device Idle s) (hlawful : device.Lawful Idle Valid)
    (hfit : s.Fitting) (hm : s.monitor.Sound)
    (hvalid : ∀ t request, s.point t = .inAcquire request → Valid request)
    (hdoes : Does device s e s') : Stage device Idle s' := by
  have hblocked : ∀ {e' monitor}, s.monitor.step e' = some monitor →
      (∀ t, e' = .ready t → s.point t = .outside) → ∀ t request answer,
        s.point t = .waiting request answer → s.monitor.scheduler.status t = .BLOCKED →
          monitor.scheduler.status t = .BLOCKED := by
    intro e' monitor hstep hready t request answer hpoint hst
    refine hm.scheduled.blocked_step (Monitor.does_of_step hstep).2 (hfit.call hpoint) hst ?_
    intro he
    cases (hready t he).symm.trans hpoint
  cases hdoes with
  | background hbackground hstep =>
      refine h.keep rfl rfl rfl (fun _ _ _ => Iff.rfl) (hblocked hstep fun t he => ?_)
      cases hbackground with
      | ready hpoint =>
          cases he
          exact not_not.mp hpoint
      | dispatch | yield | sleep | resume => cases he
  | acquire hpoint hstep =>
      exact h.keep rfl rfl rfl (waiting_moveTo_iff (by simp) (by simp [hpoint]))
        (hblocked hstep (by simp))
  | request hruns hpoint => exact h.request hlawful hfit hm (hvalid _ _ hpoint) hruns hpoint _
  | through hruns hpoint hvalue => exact h.through hfit hm hpoint hvalue
  | asleep hruns hpoint hvalue hstep =>
      exact h.sleep hfit hm hpoint hvalue hruns (Monitor.does_of_step hstep).2
  | release hpoint hstep =>
      exact h.keep rfl rfl rfl (waiting_moveTo_iff (by simp) (by simp [hpoint]))
        (hblocked hstep (by simp))
  | leave hruns hpoint =>
      exact h.keep rfl rfl rfl (waiting_moveTo_iff (by simp) (by simp [hpoint]))
        fun _ _ _ _ hst => hst
  | interrupt hpending => exact h.interrupt hpending

end Stage

end Stage

/-! ## Who is awake -/

section Attentive

variable {device : Device ε σ ρ α} {Idle : σ → Prop} {s s' : Driver σ ρ α} {t : Tid}
  {e : Event ε ρ}

/-- A thread in a call and in no operation of the lock is awake, or stands in
the queue of the semaphore. -/
def Attentive (s : Driver σ ρ α) : Prop :=
  Monitor.Attentive (fun p => p ≠ .outside) s.point s.monitor s.semaphore.queue

/-- **The handler** makes nobody ready, or the thread that sleeps for it. -/
theorem Stage.handle_monitor (h : Stage device Idle s) (hfit : s.Fitting)
    (halive : s.monitor.failed = false) :
    (s.semaphore.queue = [] ∧ (handle device s).monitor = s.monitor) ∨
      ∃ t, s.semaphore.queue = [t] ∧ (handle device s).monitor.Awake t ∧
        s.monitor.step (.ready t) = some (handle device s).monitor := by
  cases h with
  | quiet _ _ hsemaphore | busy _ _ hsemaphore | done _ _ hsemaphore =>
      left
      rw [handle, hsemaphore]
      exact ⟨rfl, rfl⟩
  | @asleep t request answer hpoint hblocked _ hsemaphore =>
      right
      have haway : s.monitor.Away t := ⟨hfit.call hpoint, .inr hblocked⟩
      refine ⟨t, by rw [hsemaphore], .inl ?_, ?_⟩
      · simp [handle, hsemaphore, Semaphore.V, Scheduler.wake, Scheduler.ReadyToRun]
      · simp [Monitor.step, halive, haway, handle, hsemaphore, Semaphore.V, Scheduler.wake]

namespace Attentive

theorem step (h : s.Attentive) (hstage : Stage device Idle s) (hfit : s.Fitting)
    (hm : s.monitor.Sound) (halive : s.monitor.failed = false) (hdoes : Does device s e s') :
    s'.Attentive := by
  have hawake : ∀ {t}, s.monitor.Runs t → s.monitor.Awake t := fun hruns =>
    .inr (hm.scheduled.status_of_current hruns.1)
  cases hdoes with
  | background hbackground hstep =>
      exact h.background hm hbackground (Monitor.does_of_step hstep).2
  | @acquire t request monitor hpoint hstep =>
      obtain ⟨-, hdoes⟩ := Monitor.does_of_step hstep
      cases hdoes with
      | acquire hruns => exact h.call hm (.acquire hruns) hruns (by simp)
  | request hruns =>
      unfold ask
      split
      · exact h
      · exact h.moveTo (hawake hruns)
  | through hruns => exact h.moveTo (hawake hruns)
  | @asleep t request answer monitor hruns hpoint hvalue hstep =>
      obtain ⟨-, hdoes⟩ := Monitor.does_of_step hstep
      -- who goes to sleep stands in the queue of the semaphore
      intro u hu hcall
      by_cases hut : u = t
      · subst hut
        exact .inr (List.mem_append_right _ List.mem_cons_self)
      · cases hdoes
        refine (h u hu hcall).imp (fun hstill => ?_) (List.mem_append_left _)
        simpa [Monitor.Awake, Scheduler.Sleep, hut] using hstill
  | @release t request answer monitor hpoint hstep =>
      obtain ⟨-, hdoes⟩ := Monitor.does_of_step hstep
      cases hdoes with
      | release hruns => exact h.call hm (.release hruns) hruns (by simp)
  | leave hruns => exact h.moveTo (hawake hruns)
  | interrupt hpending =>
      intro u hu hcall
      -- the handler finds the queue empty, or takes its only thread off it and wakes it
      obtain ⟨hqueue, hsame⟩ | ⟨t, hqueue, hwoken, hready⟩ := hstage.handle_monitor hfit halive
      · rw [hsame] at hcall ⊢
        refine (h u hu hcall).imp_right fun hmem => ?_
        rw [hqueue] at hmem
        cases hmem
      · left
        obtain ⟨-, hdoes⟩ := Monitor.does_of_step hready
        rcases h.operate hm hdoes (by simp) u hu hcall with hstill | hmem
        · exact hstill
        · rw [hqueue] at hmem
          obtain rfl := List.mem_singleton.mp hmem
          exact hwoken

end Attentive

end Attentive

/-! ## The log -/

section Log

variable {device : Device ε σ ρ α} {Idle : σ → Prop} {Valid : ρ → Prop} {s s' : Driver σ ρ α}
  {t : Tid} {first : σ} {e : Event ε ρ}

/-- Each thread has got its answers, but for the request it is in. -/
def Recorded (s : Driver σ ρ α) : Prop :=
  Linear.Recorded DriverPoint.unreturned s.point s.log s.returned

theorem Recorded.step (h : s.Recorded) (hdoes : Does device s e s') : s'.Recorded := by
  cases hdoes with
  | background | asleep | interrupt => exact h
  | acquire hpoint => exact Linear.Recorded.moveTo h (by rw [hpoint]; rfl)
  | request hruns hpoint =>
      unfold ask
      split
      · exact h
      · exact Linear.Recorded.effect h (by rw [hpoint]; rfl) rfl
  | through hruns hpoint => exact Linear.Recorded.moveTo h (by rw [hpoint]; rfl)
  | release hpoint => exact Linear.Recorded.moveTo h (by rw [hpoint]; rfl)
  | leave hruns hpoint => exact Linear.Recorded.leave h (by rw [hpoint]; rfl) rfl

/-- The device when its interrupt has come. -/
def settled (device : Device ε σ ρ α) (s : Driver σ ρ α) : σ :=
  if s.pending = 0 then s.hardware else device.handleInterrupt s.hardware

/-- The device is where the log leads. -/
def Replayed (device : Device ε σ ρ α) (first : σ) (s : Driver σ ρ α) : Prop :=
  Linear.Replay device.Serves first s.log (settled device s)

theorem Replayed.step (h : Replayed device first s) (hstage : Stage device Idle s)
    (hfit : s.Fitting) (hm : s.monitor.Sound) (hdoes : Does device s e s') :
    Replayed device first s' := by
  cases hdoes with
  | background | acquire | through | asleep | release | leave => exact h
  | @request t outer request hruns hpoint =>
      have hfits : Fits (.inAcquire request) .outside _ := hpoint ▸ hruns.2 ▸ hfit t
      obtain ⟨-, hpending, -⟩ := hstage.quiet_of_holding hfit hm hfits.of_acquired
        (fun request answer hwaiting => by cases hpoint.symm.trans hwaiting)
      rw [Replayed, settled, if_pos hpending] at h
      unfold ask
      split
      · rw [Replayed, settled, if_pos hpending]
        exact h
      · rename_i hardware answer htaken
        refine h.snoc ⟨outer, ?_⟩
        rw [Device.atOnce, htaken, settled, if_neg (by simp)]
        rfl
  | interrupt hpending =>
      have hone : s.pending = 1 := by
        cases hstage with
        | quiet _ hp | done _ hp => omega
        | busy _ hp | asleep _ _ hp => exact hp
      rw [Replayed, settled, if_neg (by omega)] at h
      rw [Replayed, settled, if_pos (by simp [handle, hone])]
      exact h

/-- The log only grows. -/
theorem log_step (hdoes : Does device s e s') : s.log <+: s'.log := by
  cases hdoes with
  | background | acquire | through | asleep | release | leave | interrupt =>
      exact List.prefix_rfl
  | request =>
      unfold ask
      split
      · exact List.prefix_rfl
      · exact List.prefix_append ..

end Log

/-! ## All together -/

section Sound

variable {device : Device ε σ ρ α} {Idle : σ → Prop} {Valid : ρ → Prop} {s s' : Driver σ ρ α}
  {first : σ} {e : Event ε ρ}

/-- The invariants together. -/
structure Sound (device : Device ε σ ρ α) (Idle : σ → Prop) (Valid : ρ → Prop) (first : σ)
    (s : Driver σ ρ α) : Prop where
  monitor : s.monitor.Sound
  wakeful : s.monitor.Wakeful
  alive : s.monitor.failed = false ∧ s.failed = false
  fitting : s.Fitting
  valid : ∀ t request, s.point t = .inAcquire request → Valid request
  stage : Stage device Idle s
  attentive : s.Attentive
  recorded : s.Recorded
  replayed : Replayed device first s

namespace Sound

theorem start (hidle : Idle first) :
    Sound device Idle Valid first (Driver.start first : Driver σ ρ α) where
  monitor := .start
  wakeful := .start
  alive := ⟨rfl, rfl⟩
  fitting _ := .outside
  valid _ _ h := by cases h
  stage := .start hidle
  attentive _ h := absurd rfl h
  recorded _ := rfl
  replayed := .nil

/-- The monitor takes a step of its own or none, and no `Release` without the
lock. -/
theorem monitor_of_step (h : Sound device Idle Valid first s) (hdoes : Does device s e s') :
    s'.monitor = s.monitor ∨ ∃ e', s.monitor.step e' = some s'.monitor ∧
      ∀ t, e' = .release t → s.monitor.holding t = true := by
  cases hdoes with
  | background hbackground hstep =>
      refine .inr ⟨_, hstep, fun t he => ?_⟩
      cases hbackground <;> cases he
  | acquire hpoint hstep => exact .inr ⟨_, hstep, nofun⟩
  | asleep hruns hpoint hvalue hstep => exact .inr ⟨_, hstep, nofun⟩
  | @release t request answer monitor hpoint hstep =>
      refine .inr ⟨_, hstep, fun u he => ?_⟩
      cases he
      exact (hpoint ▸ h.fitting t : Fits (.answered request answer) _ _).of_answered.2
  | request =>
      left
      unfold ask
      split <;> rfl
  | through | leave => exact .inl rfl
  | interrupt =>
      obtain ⟨-, hsame⟩ | ⟨t, -, -, hready⟩ := h.stage.handle_monitor h.fitting h.alive.1
      · exact .inl hsame
      · exact .inr ⟨_, hready, nofun⟩

/-- No `ASSERT` fails. -/
theorem alive_of_step (h : Sound device Idle Valid first s) (hlawful : device.Lawful Idle Valid)
    (hdoes : Does device s e s') : s'.monitor.failed = false ∧ s'.failed = false := by
  constructor
  · obtain hsame | ⟨e', hstep, hrelease⟩ := h.monitor_of_step hdoes
    · rw [hsame]
      exact h.alive.1
    · exact h.monitor.alive_of_release hstep fun t he _ => hrelease t he
  · cases hdoes with
    | background | acquire | through | asleep | release | leave | interrupt => exact h.alive.2
    | @request t outer request hruns hpoint =>
        have hfits : Fits (.inAcquire request) .outside _ := hpoint ▸ hruns.2 ▸ h.fitting t
        obtain ⟨-, -, -, hidle⟩ := h.stage.quiet_of_holding h.fitting h.monitor hfits.of_acquired
          (fun request answer hwaiting => by cases hpoint.symm.trans hwaiting)
        obtain ⟨hardware, answer, htaken, -⟩ :=
          hlawful.takes outer hidle (h.valid t request hpoint)
        rw [ask, htaken]
        exact h.alive.2

theorem valid_of_step (h : Sound device Idle Valid first s)
    (hevent : ∀ t request, e = .acquire t request → Valid request) (hdoes : Does device s e s') :
    ∀ t request, s'.point t = .inAcquire request → Valid request := by
  have hmove : ∀ {t : Tid} {p : DriverPoint ρ α},
      (∀ request, p = .inAcquire request → Valid request) →
        ∀ u request, (s.moveTo t p).point u = .inAcquire request → Valid request := by
    intro t p hp u request hu
    by_cases hut : u = t
    · subst hut
      rw [moveTo_point_self] at hu
      exact hp request hu
    · rw [moveTo_point_of_ne s t p hut] at hu
      exact h.valid u request hu
  cases hdoes with
  | background | asleep | interrupt => exact h.valid
  | acquire =>
      refine hmove fun request he => ?_
      cases he
      exact hevent _ _ rfl
  | request =>
      unfold ask
      split
      · exact h.valid
      · exact hmove nofun
  | through | release | leave => exact hmove nofun

theorem step (h : Sound device Idle Valid first s) (hlawful : device.Lawful Idle Valid)
    (hevent : ∀ t request, e = .acquire t request → Valid request)
    (hstep : Driver.step device s e = some s') : Sound device Idle Valid first s' := by
  obtain ⟨-, hdoes⟩ := does_of_step hstep
  have hmonitor : s'.monitor.Sound ∧ s'.monitor.Wakeful := by
    obtain hsame | ⟨e', hstep', -⟩ := h.monitor_of_step hdoes
    · rw [hsame]
      exact ⟨h.monitor, h.wakeful⟩
    · exact ⟨h.monitor.step hstep', h.wakeful.step h.monitor (Monitor.does_of_step hstep').2⟩
  exact
    { monitor := hmonitor.1
      wakeful := hmonitor.2
      alive := h.alive_of_step hlawful hdoes
      fitting := h.fitting.step h.monitor hdoes
      valid := h.valid_of_step hevent hdoes
      stage := h.stage.step hlawful h.fitting h.monitor h.valid hdoes
      attentive := h.attentive.step h.stage h.fitting h.monitor h.alive.1 hdoes
      recorded := h.recorded.step hdoes
      replayed := h.replayed.step h.stage h.fitting h.monitor hdoes }

/-- **Nobody is forgotten**: the CPU comes to rest, with no interrupt to come,
only when every call has returned. -/
theorem outside_of_rest (h : Sound device Idle Valid first s) (hrest : s.monitor.AtRest)
    (hpending : s.pending = 0) (t : Tid) : s.point t = .outside := by
  have hqueue : s.semaphore.queue = [] := by
    cases h.stage with
    | quiet _ _ hsemaphore | busy _ _ hsemaphore | done _ _ hsemaphore => rw [hsemaphore]
    | asleep _ _ hp => omega
  by_contra hpoint
  have hattentive : Monitor.Attentive (fun p => p ≠ .outside) s.point s.monitor [] :=
    hqueue ▸ h.attentive
  obtain ⟨c, hmem⟩ := hrest.inside h.monitor h.wakeful hattentive
    (fun u hu => h.fitting.inside_of_holding hu) t hpoint
  -- there are no conditions here
  exact (h.fitting t).not_inWait (h.monitor.scheduled.mem_condition_iff.mp hmem).1

end Sound

/-- As if the calls came one behind the other: no `ASSERT` fails; at most one
thread is between its request and the `Release`, and behind the `P` its
interrupt has come; the device is where the log leads; each thread gets its
answers of the log in order, and has them all at rest. -/
structure Atomic (device : Device ε σ ρ α) (first : σ) (s : Driver σ ρ α) : Prop where
  alive : s.monitor.failed = false ∧ s.failed = false
  alone : ∀ t u, ((s.point t).unreturned ≠ [] ∧ s.monitor.holding t = true) →
    ((s.point u).unreturned ≠ [] ∧ s.monitor.holding u = true) → t = u
  completed : ∀ t request answer, s.point t = .answered request answer → s.pending = 0
  replay : ∃ hardware, Linear.Replay device.Serves first s.log hardware ∧
    (s.pending = 0 → s.hardware = hardware)
  answers : ∀ t, Linear.ofThread t s.log = Linear.ofThread t s.returned ++ (s.point t).unreturned
  rest : s.monitor.AtRest → s.pending = 0 → ∀ t, s.point t = .outside

theorem Sound.atomic (h : Sound device Idle Valid first s) : Atomic device first s where
  alive := h.alive
  alone t u ht hu := h.monitor.correct.exclusive t u ht.2 hu.2
  completed t request answer hpoint := by
    have hholding := (hpoint ▸ h.fitting t : Fits (.answered request answer) _ _).of_answered.2
    refine (h.stage.quiet_of_holding h.fitting h.monitor hholding
      fun request' answer' hwaiting => ?_).2.1
    cases hpoint.symm.trans hwaiting
  replay := by
    refine ⟨settled device s, h.replayed, fun hpending => ?_⟩
    rw [settled, if_pos hpending]
  answers := h.recorded
  rest := h.outside_of_rest

/-- Every call asks something valid. -/
def ValidCalls (Valid : ρ → Prop) (events : List (Event ε ρ)) : Prop :=
  ∀ t request, .acquire t request ∈ events → Valid request

/-- **Along every run**, with any number of threads and interrupts at any
time. -/
theorem sound_of_exec (hlawful : device.Lawful Idle Valid) (hidle : Idle first)
    {events : List (Event ε ρ)} (hvalid : ValidCalls Valid events)
    (hrun : exec (Driver.step device) (Driver.start first) events = some s) :
    Sound device Idle Valid first s := by
  have hall : Throughout (Driver.step device) (Sound device Idle Valid first)
      (Driver.start first) events :=
    throughout_of_step (.start hidle) fun front e s s' hfront _ h hstep =>
      h.step hlawful (fun t request he => hvalid t request (he ▸ mem_of_snoc hfront)) hstep
  exact hall events s List.prefix_rfl hrun

/-- What the device has taken stays in front of what comes later. -/
theorem log_of_exec {events : List (Event ε ρ)}
    (hrun : exec (Driver.step device) s events = some s') : s.log <+: s'.log := by
  induction events generalizing s with
  | nil =>
      cases hrun
      exact List.prefix_rfl
  | cons e rest ih =>
      obtain ⟨t, ht, hrest⟩ := Option.bind_eq_some_iff.mp hrun
      exact (log_step (does_of_step ht).2).trans (ih hrest)

end Sound

end Driver

end DistributedAscii.NachOS
