import DistributedAscii.Lib.Runs
import DistributedAscii.NachOS.Scheduler

/-!
# NachOS — Lock and Condition

`Lock` and `Condition` of `threads/synch.cc`: one lock, any number of
conditions that go with it, any number of threads. Each operation runs with
interrupts off, so that it is one action up to the `Sleep` in it, and what
follows the `Sleep` is another one.

Added to the program: `holding`, from the return of `Acquire` or `Wait` to
the next `Release` or `Wait`, and the `trace` of the waits and signals.
-/

namespace DistributedAscii.NachOS

open Lib.Runs

/-- Where a thread is: in code of its own, asleep or about to look again in
the `P` of an `Acquire` (that of a `Wait`, if it has a condition), or behind
the `Sleep` of a `Wait`. -/
inductive CallPoint where
  | outside
  | inP (wait : Option Nat)
  | inWait (c : Nat)
deriving DecidableEq, Repr

inductive Action where
  | started (t : Tid) (c : Nat)
  | signalled (c : Nat)
deriving DecidableEq, Repr

/-- `trace` has the last action first. `failed` when an `ASSERT` has ended
the program. -/
structure Monitor where
  scheduler : Scheduler
  semaphore : Semaphore
  owner : Option Tid
  conditions : Nat → List Tid
  callPoint : Tid → CallPoint
  holding : Tid → Bool
  trace : List Action
  failed : Bool

namespace Monitor

/-- What the current thread `t` does, or an interrupt in its place: the CPU
goes to a ready thread, a thread that is not in here becomes ready, the
current one is preempted or falls asleep elsewhere, it calls an operation,
or goes on in one after a `Sleep`. -/
inductive Event where
  | dispatch
  | ready (t : Tid)
  | yield (t : Tid)
  | sleep (t : Tid)
  | acquire (t : Tid)
  | release (t : Tid)
  | wait (t : Tid) (c : Nat)
  | signal (t : Tid) (c : Nat)
  | broadcast (t : Tid) (c : Nat)
  | resume (t : Tid)
deriving DecidableEq, Repr

def start : Monitor where
  scheduler := .start
  semaphore := ⟨1, []⟩
  owner := none
  conditions _ := []
  callPoint _ := .outside
  holding _ := false
  trace := []
  failed := false

def abort (s : Monitor) : Monitor :=
  { s with failed := true }

def V (s : Monitor) : Monitor :=
  { s with semaphore := s.semaphore.V.1, scheduler := s.scheduler.wake s.semaphore.V.2 }

/-- At the test of `P`; behind it `owner = currentThread`. -/
def Acquire (s : Monitor) (t : Tid) (wait : Option Nat) : Monitor :=
  let r := s.semaphore.P t
  if r.2 then
    { s with
      semaphore := r.1
      owner := some t
      callPoint := Function.update s.callPoint t .outside
      holding := Function.update s.holding t true }
  else
    { s with
      semaphore := r.1
      callPoint := Function.update s.callPoint t (.inP wait)
      scheduler := s.scheduler.Sleep t }

def Release (s : Monitor) (t : Tid) : Monitor :=
  if s.owner = some t then
    V { s with owner := none, holding := Function.update s.holding t false }
  else s.abort

/-- `queue->Append(currentThread)` and `Sleep`. -/
def enqueue (s : Monitor) (t : Tid) (c : Nat) : Monitor :=
  { s with
    conditions := Function.update s.conditions c (s.conditions c ++ [t])
    callPoint := Function.update s.callPoint t (.inWait c)
    scheduler := s.scheduler.Sleep t
    trace := .started t c :: s.trace }

def Wait (s : Monitor) (t : Tid) (c : Nat) : Monitor :=
  if s.owner = some t then (s.Release t).enqueue t c else s.abort

def Signal (s : Monitor) (t : Tid) (c : Nat) : Monitor :=
  if s.owner = some t then
    { s with
      conditions := Function.update s.conditions c (s.conditions c).tail
      scheduler := s.scheduler.wake (s.conditions c).head?
      trace := .signalled c :: s.trace }
  else s.abort

def Broadcast (s : Monitor) (t : Tid) (c : Nat) : Monitor :=
  if s.owner = some t then
    { s with
      conditions := Function.update s.conditions c []
      scheduler := s.scheduler.wakeAll (s.conditions c)
      trace := .signalled c :: s.trace }
  else s.abort

section Acquire

variable {s : Monitor}

theorem Acquire_asleep (hzero : s.semaphore.value = 0) (t : Tid) (wait : Option Nat) :
    s.Acquire t wait =
      { s with
        semaphore := { s.semaphore with queue := s.semaphore.queue ++ [t] }
        callPoint := Function.update s.callPoint t (.inP wait)
        scheduler := s.scheduler.Sleep t } := by
  simp [Acquire, Semaphore.P, hzero]

theorem Acquire_through (hvalue : s.semaphore.value ≠ 0) (t : Tid) (wait : Option Nat) :
    s.Acquire t wait =
      { s with
        semaphore := { s.semaphore with value := wrap32 (s.semaphore.value - 1) }
        owner := some t
        callPoint := Function.update s.callPoint t .outside
        holding := Function.update s.holding t true } := by
  simp [Acquire, Semaphore.P, hvalue]

end Acquire

/-- Thread `t` has the CPU, and runs its own code. -/
def Runs (s : Monitor) (t : Tid) : Prop :=
  s.scheduler.currentThread = some t ∧ s.callPoint t = .outside

instance (s : Monitor) (t : Tid) : Decidable (s.Runs t) :=
  inferInstanceAs (Decidable (_ ∧ _))

/-- A thread that is not in here and not ready: new, or asleep elsewhere. -/
def Away (s : Monitor) (t : Tid) : Prop :=
  s.callPoint t = .outside ∧
    (s.scheduler.status t = .JUST_CREATED ∨ s.scheduler.status t = .BLOCKED)

instance (s : Monitor) (t : Tid) : Decidable (s.Away t) :=
  inferInstanceAs (Decidable (_ ∧ (_ ∨ _)))

/-- The conditions are used only while holding the lock; `Acquire` and
`Release` at any time. -/
def step (s : Monitor) (e : Event) : Option Monitor :=
  if s.failed then none else
  match e with
  | .dispatch =>
      if s.scheduler.currentThread = none then
        s.scheduler.dispatch.map fun scheduler => { s with scheduler }
      else none
  | .ready t => if s.Away t then some { s with scheduler := s.scheduler.ReadyToRun t } else none
  | .yield t => if s.Runs t then some { s with scheduler := s.scheduler.Yield t } else none
  | .sleep t => if s.Runs t then some { s with scheduler := s.scheduler.Sleep t } else none
  | .acquire t => if s.Runs t then some (s.Acquire t none) else none
  | .release t => if s.Runs t then some (s.Release t) else none
  | .wait t c => if s.Runs t ∧ s.holding t then some (s.Wait t c) else none
  | .signal t c => if s.Runs t ∧ s.holding t then some (s.Signal t c) else none
  | .broadcast t c => if s.Runs t ∧ s.holding t then some (s.Broadcast t c) else none
  | .resume t =>
      if s.scheduler.currentThread = some t then
        match s.callPoint t with
        | .outside => none
        | .inP wait => some (s.Acquire t wait)
        | .inWait c => some (s.Acquire t (some c))
      else none

/-- Thread `t` is in a `Wait` for `c`. -/
def InsideWait (s : Monitor) (t : Tid) (c : Nat) : Prop :=
  s.callPoint t = .inWait c ∨ s.callPoint t = .inP (some c)

/-- It is in the `Sleep` of that `Wait`. -/
def Asleep (s : Monitor) (t : Tid) (c : Nat) : Prop :=
  s.callPoint t = .inWait c ∧ s.scheduler.status t = .BLOCKED

instance (s : Monitor) (t : Tid) (c : Nat) : Decidable (s.Asleep t c) :=
  inferInstanceAs (Decidable (_ ∧ _))

section callPoint

variable (s : Monitor) (t u : Tid) (c : Nat)

@[simp] theorem callPoint_Release : (s.Release t).callPoint = s.callPoint := by
  unfold Release
  split <;> rfl

@[simp] theorem callPoint_Signal : (s.Signal t c).callPoint = s.callPoint := by
  unfold Signal
  split <;> rfl

@[simp] theorem callPoint_Broadcast : (s.Broadcast t c).callPoint = s.callPoint := by
  unfold Broadcast
  split <;> rfl

variable {t u}

theorem callPoint_Wait_of_ne (h : u ≠ t) : (s.Wait t c).callPoint u = s.callPoint u := by
  unfold Wait
  split
  · simp [enqueue, h]
  · rfl

theorem callPoint_Acquire_of_ne (h : u ≠ t) (wait : Option Nat) :
    (s.Acquire t wait).callPoint u = s.callPoint u := by
  by_cases hzero : s.semaphore.value = 0
  · simp [Acquire_asleep hzero, h]
  · simp [Acquire_through hzero, h]

end callPoint

theorem conditions_Acquire (s : Monitor) (t : Tid) (wait : Option Nat) :
    (s.Acquire t wait).conditions = s.conditions := by
  by_cases hzero : s.semaphore.value = 0
  · rw [Acquire_asleep hzero]
  · rw [Acquire_through hzero]

theorem conditions_Release (s : Monitor) (t : Tid) : (s.Release t).conditions = s.conditions := by
  unfold Release
  split <;> rfl

theorem conditions_Wait {s : Monitor} {t : Tid} (h : s.owner = some t) (c : Nat) :
    (s.Wait t c).conditions = Function.update s.conditions c (s.conditions c ++ [t]) := by
  rw [Wait, if_pos h]
  simp only [enqueue, conditions_Release]

theorem conditions_Signal {s : Monitor} {t : Tid} (h : s.owner = some t) (c : Nat) :
    (s.Signal t c).conditions = Function.update s.conditions c (s.conditions c).tail := by
  rw [Signal, if_pos h]

/-- Only the call of thread `t` and its lock may have changed. -/
structure Moves (s : Monitor) (t : Tid) (s' : Monitor) : Prop where
  callPoint : ∀ u, u ≠ t → s'.callPoint u = s.callPoint u
  holding : ∀ u, u ≠ t → s'.holding u = s.holding u

section Moves

variable {s : Monitor} {t : Tid}

theorem Moves.refl (s : Monitor) (t : Tid) : s.Moves t s :=
  ⟨fun _ _ => rfl, fun _ _ => rfl⟩

theorem Acquire_moves (s : Monitor) (t : Tid) (wait : Option Nat) :
    s.Moves t (s.Acquire t wait) := by
  refine ⟨fun u hu => callPoint_Acquire_of_ne s hu wait, fun u hu => ?_⟩
  by_cases hzero : s.semaphore.value = 0
  · rw [Acquire_asleep hzero]
  · rw [Acquire_through hzero]
    exact Function.update_of_ne hu ..

theorem Release_moves (howner : s.owner = some t) : s.Moves t (s.Release t) := by
  rw [Release, if_pos howner]
  exact ⟨fun _ _ => rfl, fun _ hu => Function.update_of_ne hu ..⟩

theorem Wait_moves (howner : s.owner = some t) (c : Nat) : s.Moves t (s.Wait t c) := by
  refine ⟨fun u hu => callPoint_Wait_of_ne s c hu, fun u hu => ?_⟩
  rw [Wait, if_pos howner]
  exact (Release_moves howner).holding u hu

end Moves

theorem failed_Acquire (s : Monitor) (t : Tid) (wait : Option Nat) :
    (s.Acquire t wait).failed = s.failed := by
  by_cases hzero : s.semaphore.value = 0
  · rw [Acquire_asleep hzero]
  · rw [Acquire_through hzero]

theorem failed_Release {s : Monitor} {t : Tid} (h : s.owner = some t) :
    (s.Release t).failed = s.failed := by
  rw [Release, if_pos h]
  rfl

theorem failed_Wait {s : Monitor} {t : Tid} (h : s.owner = some t) (c : Nat) :
    (s.Wait t c).failed = s.failed := by
  rw [Wait, if_pos h]
  exact failed_Release h

theorem InsideWait.congr {s s' : Monitor} {t : Tid} {c : Nat} (h : s.InsideWait t c)
    (hcall : s'.callPoint t = s.callPoint t) : s'.InsideWait t c := by
  rwa [InsideWait, hcall]

/-- What an event does, case by case. -/
inductive Does (s : Monitor) : Event → Monitor → Prop where
  | dispatch {nextThread rest} (hidle : s.scheduler.currentThread = none)
      (hready : s.scheduler.readyList = nextThread :: rest) :
      Does s .dispatch
        { s with scheduler := { s.scheduler with readyList := rest }.Run nextThread }
  | ready {t} (haway : s.Away t) :
      Does s (.ready t) { s with scheduler := s.scheduler.ReadyToRun t }
  | yield {t} (hruns : s.Runs t) :
      Does s (.yield t) { s with scheduler := s.scheduler.Yield t }
  | sleep {t} (hruns : s.Runs t) :
      Does s (.sleep t) { s with scheduler := s.scheduler.Sleep t }
  | acquire {t} (hruns : s.Runs t) : Does s (.acquire t) (s.Acquire t none)
  | release {t} (hruns : s.Runs t) : Does s (.release t) (s.Release t)
  | wait {t c} (hruns : s.Runs t) (hholding : s.holding t = true) :
      Does s (.wait t c) (s.Wait t c)
  | signal {t c} (hruns : s.Runs t) (hholding : s.holding t = true) :
      Does s (.signal t c) (s.Signal t c)
  | broadcast {t c} (hruns : s.Runs t) (hholding : s.holding t = true) :
      Does s (.broadcast t c) (s.Broadcast t c)
  | resume {t wait} (hcurrent : s.scheduler.currentThread = some t)
      (hwait : s.callPoint t = .inP wait ∨ ∃ c, wait = some c ∧ s.callPoint t = .inWait c) :
      Does s (.resume t) (s.Acquire t wait)

theorem does_of_step {s s' : Monitor} {e : Event} (h : step s e = some s') :
    s.failed = false ∧ Does s e s' := by
  simp only [step] at h
  split at h
  case isTrue => cases h
  case isFalse hfailed =>
    refine ⟨by simpa using hfailed, ?_⟩
    cases e with
    | dispatch =>
        obtain ⟨hidle, h⟩ := Option.ite_none_right_eq_some.mp h
        obtain ⟨scheduler, hdispatch, rfl⟩ := Option.map_eq_some_iff.mp h
        simp only [Scheduler.dispatch] at hdispatch
        split at hdispatch
        · cases hdispatch
        · cases hdispatch
          exact .dispatch hidle ‹_›
    | ready t =>
        obtain ⟨haway, h⟩ := Option.ite_none_right_eq_some.mp h
        cases h
        exact .ready haway
    | yield t =>
        obtain ⟨hruns, h⟩ := Option.ite_none_right_eq_some.mp h
        cases h
        exact .yield hruns
    | sleep t =>
        obtain ⟨hruns, h⟩ := Option.ite_none_right_eq_some.mp h
        cases h
        exact .sleep hruns
    | acquire t =>
        obtain ⟨hruns, h⟩ := Option.ite_none_right_eq_some.mp h
        cases h
        exact .acquire hruns
    | release t =>
        obtain ⟨hruns, h⟩ := Option.ite_none_right_eq_some.mp h
        cases h
        exact .release hruns
    | wait t c =>
        obtain ⟨⟨hruns, hholding⟩, h⟩ := Option.ite_none_right_eq_some.mp h
        cases h
        exact .wait hruns hholding
    | signal t c =>
        obtain ⟨⟨hruns, hholding⟩, h⟩ := Option.ite_none_right_eq_some.mp h
        cases h
        exact .signal hruns hholding
    | broadcast t c =>
        obtain ⟨⟨hruns, hholding⟩, h⟩ := Option.ite_none_right_eq_some.mp h
        cases h
        exact .broadcast hruns hholding
    | resume t =>
        obtain ⟨hcurrent, h⟩ := Option.ite_none_right_eq_some.mp h
        split at h
        case h_1 => cases h
        case h_2 wait hpoint =>
          cases h
          exact .resume hcurrent (.inl hpoint)
        case h_3 c hpoint =>
          cases h
          exact .resume hcurrent (.inr ⟨c, rfl, hpoint⟩)

end Monitor

end DistributedAscii.NachOS
