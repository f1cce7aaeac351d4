import DistributedAscii.NachOS.Semaphore

/-!
# NachOS — threads on the CPU

`Thread` and `Scheduler` of `threads/thread.cc` and `threads/scheduler.cc`:
the status of each thread and the list of the ready ones. `Sleep` is cut in
two at the place where it looks for a thread to run, so that
`currentThread` is none as long as there is none.
-/

namespace DistributedAscii.NachOS

inductive ThreadStatus where
  | JUST_CREATED
  | RUNNING
  | READY
  | BLOCKED
deriving DecidableEq, Repr

structure Scheduler where
  currentThread : Option Tid
  status : Tid → ThreadStatus
  readyList : List Tid

namespace Scheduler

/-- Only the first thread is there. -/
def start : Scheduler where
  currentThread := some 0
  status := Function.update (fun _ => .JUST_CREATED) 0 .RUNNING
  readyList := []

def ReadyToRun (s : Scheduler) (t : Tid) : Scheduler :=
  { s with status := Function.update s.status t .READY, readyList := s.readyList ++ [t] }

def Run (s : Scheduler) (nextThread : Tid) : Scheduler :=
  { s with currentThread := some nextThread,
           status := Function.update s.status nextThread .RUNNING }

/-- `FindNextToRun` and `Run`, once somebody is ready. -/
def dispatch (s : Scheduler) : Option Scheduler :=
  match s.readyList with
  | [] => none
  | nextThread :: rest => some ({ s with readyList := rest }.Run nextThread)

def Yield (s : Scheduler) (t : Tid) : Scheduler :=
  match s.readyList with
  | [] => s
  | nextThread :: rest => ({ s with readyList := rest }.ReadyToRun t).Run nextThread

def Sleep (s : Scheduler) (t : Tid) : Scheduler :=
  { s with currentThread := none, status := Function.update s.status t .BLOCKED }

/-- `ReadyToRun` of what `Remove` took from a queue, if anything. -/
def wake (s : Scheduler) : Option Tid → Scheduler
  | none => s
  | some t => s.ReadyToRun t

/-- `wake` until the queue is empty. -/
def wakeAll (s : Scheduler) (queue : List Tid) : Scheduler :=
  queue.foldl ReadyToRun s

theorem currentThread_wake (s : Scheduler) (t : Option Tid) :
    (s.wake t).currentThread = s.currentThread := by
  cases t <;> rfl

theorem status_wake (s : Scheduler) (thread : Option Tid) (u : Tid) :
    (s.wake thread).status u = if thread = some u then .READY else s.status u := by
  cases thread with
  | none => rfl
  | some t => simp [wake, ReadyToRun, Function.update_apply, eq_comm]

section wakeAll

variable (s : Scheduler) (queue : List Tid)

theorem currentThread_wakeAll : (s.wakeAll queue).currentThread = s.currentThread := by
  induction queue generalizing s with
  | nil => rfl
  | cons t rest ih => exact ih (s.ReadyToRun t)

theorem readyList_wakeAll : (s.wakeAll queue).readyList = s.readyList ++ queue := by
  induction queue generalizing s with
  | nil => exact (List.append_nil _).symm
  | cons t rest ih =>
      refine (ih (s.ReadyToRun t)).trans ?_
      simp [ReadyToRun]

theorem status_wakeAll :
    (s.wakeAll queue).status = fun u => if u ∈ queue then .READY else s.status u := by
  induction queue generalizing s with
  | nil => simp [wakeAll]
  | cons t rest ih =>
      refine (ih (s.ReadyToRun t)).trans ?_
      funext u
      by_cases hu : u = t
      · simp [ReadyToRun, hu]
      · simp [ReadyToRun, hu]

end wakeAll

/-- Just `currentThread` is running. -/
def OneRuns (s : Scheduler) : Prop :=
  ∀ t, s.currentThread = some t ↔ s.status t = .RUNNING

namespace OneRuns

variable {s : Scheduler} {t : Tid}

theorem start : Scheduler.start.OneRuns := by
  intro t
  by_cases ht : t = 0
  · subst ht
    simp [Scheduler.start]
  · simp [Scheduler.start, ht, Ne.symm ht]

theorem ReadyToRun (h : s.OneRuns) (ht : s.status t ≠ .RUNNING) : (s.ReadyToRun t).OneRuns := by
  intro u
  by_cases hu : u = t
  · subst hu
    simp [Scheduler.ReadyToRun, h u, ht]
  · simp [Scheduler.ReadyToRun, hu, h u]

theorem Run (h : s.OneRuns) (hidle : s.currentThread = none) (rest : List Tid) :
    ({ s with readyList := rest }.Run t).OneRuns := by
  intro u
  by_cases hu : u = t
  · subst hu
    simp [Scheduler.Run]
  · simp [Scheduler.Run, hu, Ne.symm hu, ← h u, hidle]

theorem Sleep (h : s.OneRuns) (ht : s.currentThread = some t) : (s.Sleep t).OneRuns := by
  intro u
  by_cases hu : u = t
  · subst hu
    simp [Scheduler.Sleep]
  · simp [Scheduler.Sleep, hu, ← h u, ht, Ne.symm hu]

theorem Yield (h : s.OneRuns) (ht : s.currentThread = some t) : (s.Yield t).OneRuns := by
  unfold Scheduler.Yield
  split
  · exact h
  · rename_i nextThread rest _
    intro u
    by_cases hnext : u = nextThread
    · subst hnext
      simp [Scheduler.Run]
    · by_cases hu : u = t
      · subst hu
        simp [Scheduler.Run, Scheduler.ReadyToRun, hnext, Ne.symm hnext]
      · simp [Scheduler.Run, Scheduler.ReadyToRun, hnext, Ne.symm hnext, hu, ← h u, ht,
          Ne.symm hu]

theorem wake (h : s.OneRuns) {thread : Option Tid}
    (hthread : ∀ t, thread = some t → s.status t ≠ .RUNNING) : (s.wake thread).OneRuns := by
  cases thread with
  | none => exact h
  | some t => exact h.ReadyToRun (hthread t rfl)

theorem wakeAll (h : s.OneRuns) {queue : List Tid}
    (hqueue : ∀ t ∈ queue, s.status t ≠ .RUNNING) : (s.wakeAll queue).OneRuns := by
  intro u
  rw [currentThread_wakeAll, status_wakeAll, h u]
  dsimp only
  split
  case isTrue hu => simp [hqueue u hu]
  case isFalse => rfl

end OneRuns

end Scheduler

end DistributedAscii.NachOS
