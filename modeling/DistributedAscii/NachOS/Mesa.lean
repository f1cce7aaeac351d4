import DistributedAscii.Lib.Queues
import DistributedAscii.NachOS.Monitor

/-!
# NachOS — Lock and Condition are a Mesa monitor

Whatever the schedule, the lock has one holder at a time, and `Wait` returns
with the lock, after a signal. Three invariants carry this: every thread
stands in the queue that its status and its call tell (`Scheduled`), the
owner and the value of the semaphore tell who holds the lock (`Locked`), and
a thread that has left the queue of its condition was signalled (`Recorded`).
-/

namespace DistributedAscii.NachOS

open Lib.Runs Lib.Queues

namespace Monitor

/-- The lists a thread can stand in. -/
inductive Queue where
  | ready
  | semaphore
  | condition (c : Nat)
deriving DecidableEq, Repr

def queues (readyList queue : List Tid) (conditions : Nat → List Tid) : Queue → List Tid
  | .ready => readyList
  | .semaphore => queue
  | .condition c => conditions c

/-- Where a thread stands, by its status and its call. -/
def standsIn : ThreadStatus → CallPoint → Option Queue
  | .READY, _ => some .ready
  | .BLOCKED, .inP _ => some .semaphore
  | .BLOCKED, .inWait c => some (.condition c)
  | _, _ => none

def queue (s : Monitor) : Queue → List Tid :=
  queues s.scheduler.readyList s.semaphore.queue s.conditions

def place (s : Monitor) : Tid → Option Queue :=
  fun t => standsIn (s.scheduler.status t) (s.callPoint t)

@[simp] theorem standsIn_READY (p : CallPoint) : standsIn .READY p = some .ready := by
  cases p <;> rfl

@[simp] theorem standsIn_RUNNING (p : CallPoint) : standsIn .RUNNING p = none := by
  cases p <;> rfl

@[simp] theorem standsIn_outside_BLOCKED : standsIn .BLOCKED .outside = none := rfl

theorem status_ne_RUNNING {s : Monitor} {t : Tid} {k : Queue} (h : s.place t = some k) :
    s.scheduler.status t ≠ .RUNNING := by
  intro hst
  rw [place, hst, standsIn_RUNNING] at h
  cases h

theorem standsIn_ready_iff {st : ThreadStatus} {p : CallPoint} :
    standsIn st p = some .ready ↔ st = .READY := by
  cases st <;> cases p <;> simp [standsIn]

theorem standsIn_semaphore {st : ThreadStatus} {p : CallPoint}
    (h : standsIn st p = some .semaphore) : st = .BLOCKED ∧ ∃ wait, p = .inP wait := by
  cases st <;> cases p <;> first | exact ⟨rfl, _, rfl⟩ | cases h

theorem standsIn_condition_iff {st : ThreadStatus} {p : CallPoint} {c : Nat} :
    standsIn st p = some (.condition c) ↔ p = .inWait c ∧ st = .BLOCKED := by
  cases st <;> cases p <;> simp [standsIn]

section Updates

variable (readyList queue l : List Tid) (conditions : Nat → List Tid) (c : Nat)

theorem queues_ready : queues l queue conditions =
    Function.update (queues readyList queue conditions) .ready l := by
  funext q
  cases q <;> simp [queues]

theorem queues_semaphore : queues readyList l conditions =
    Function.update (queues readyList queue conditions) .semaphore l := by
  funext q
  cases q <;> simp [queues]

theorem queues_condition : queues readyList queue (Function.update conditions c l) =
    Function.update (queues readyList queue conditions) (.condition c) l := by
  funext q
  cases q with
  | ready => simp [queues]
  | semaphore => simp [queues]
  | condition d => by_cases hd : d = c <;> simp [queues, hd]

variable (status : Tid → ThreadStatus) (callPoint : Tid → CallPoint) (t : Tid)

theorem standsIn_update (st : ThreadStatus) (p : CallPoint) :
    (fun u => standsIn (Function.update status t st u) (Function.update callPoint t p u)) =
      Function.update (fun u => standsIn (status u) (callPoint u)) t (standsIn st p) := by
  funext u
  by_cases hu : u = t
  · subst hu
    simp
  · simp [hu]

theorem standsIn_status (st : ThreadStatus) :
    (fun u => standsIn (Function.update status t st u) (callPoint u)) =
      Function.update (fun u => standsIn (status u) (callPoint u)) t
        (standsIn st (callPoint t)) := by
  rw [← standsIn_update, Function.update_eq_self]

theorem standsIn_callPoint (p : CallPoint) :
    (fun u => standsIn (status u) (Function.update callPoint t p u)) =
      Function.update (fun u => standsIn (status u) (callPoint u)) t (standsIn (status t) p) := by
  rw [← standsIn_update, Function.update_eq_self]

end Updates

/-- Every thread stands where its status and its call tell, and one runs. -/
structure Scheduled (s : Monitor) : Prop where
  placed : Placed s.queue s.place
  running : s.scheduler.OneRuns

namespace Scheduled

variable {s : Monitor} {t : Tid} {c : Nat}

theorem start : Monitor.start.Scheduled where
  placed := by
    constructor
    · intro k t
      have hplace : Monitor.start.place t = none := by
        by_cases ht : t = 0
        · subst ht
          rfl
        · simp [place, Monitor.start, Scheduler.start, ht, standsIn]
      rw [hplace]
      cases k <;> simp [queue, queues, Monitor.start, Scheduler.start]
    · intro k
      cases k <;> exact List.nodup_nil
  running := Scheduler.OneRuns.start

theorem status_of_current (h : s.Scheduled) (ht : s.scheduler.currentThread = some t) :
    s.scheduler.status t = .RUNNING :=
  (h.running t).mp ht

theorem place_of_current (h : s.Scheduled) (ht : s.scheduler.currentThread = some t) :
    s.place t = none := by
  simp [place, h.status_of_current ht]

theorem mem_condition_iff (h : s.Scheduled) : t ∈ s.conditions c ↔ s.Asleep t c :=
  (h.placed.mem_iff (.condition c) t).trans standsIn_condition_iff

theorem status_of_mem_semaphore (h : s.Scheduled) (ht : t ∈ s.semaphore.queue) :
    s.scheduler.status t = .BLOCKED ∧ ∃ wait, s.callPoint t = .inP wait :=
  standsIn_semaphore ((h.placed.mem_iff .semaphore t).mp ht)

theorem mem_ready_iff (h : s.Scheduled) :
    t ∈ s.scheduler.readyList ↔ s.scheduler.status t = .READY :=
  (h.placed.mem_iff .ready t).trans standsIn_ready_iff

/-- What is kept besides the queues and the places does not matter. -/
theorem congr (h : s.Scheduled) {s' : Monitor} (hqueue : s'.queue = s.queue)
    (hplace : s'.place = s.place) (hscheduler : s'.scheduler.OneRuns) : s'.Scheduled :=
  ⟨h.placed.of_eq hqueue hplace, hscheduler⟩

theorem dispatch (h : s.Scheduled) {rest : List Tid} (hidle : s.scheduler.currentThread = none)
    (hready : s.scheduler.readyList = t :: rest) :
    Scheduled { s with scheduler := { s.scheduler with readyList := rest }.Run t } where
  placed := by
    refine (h.placed.pop (k := Queue.ready) hready).of_eq (queues_ready ..) ?_
    exact (standsIn_status ..).trans (by simp; rfl)
  running := h.running.Run hidle rest

theorem ready (h : s.Scheduled) (haway : s.Away t) :
    Scheduled { s with scheduler := s.scheduler.ReadyToRun t } where
  placed := by
    have hplace : s.place t = none := by
      obtain ⟨hpoint, hst | hst⟩ := haway
      · simp [place, hst, standsIn]
      · simp [place, hst, hpoint]
    refine (h.placed.push (k := Queue.ready) hplace).of_eq (queues_ready ..) ?_
    exact (standsIn_status ..).trans (by simp; rfl)
  running := h.running.ReadyToRun (by obtain ⟨-, hst | hst⟩ := haway <;> simp [hst])

theorem sleep (h : s.Scheduled) (hruns : s.Runs t) :
    Scheduled { s with scheduler := s.scheduler.Sleep t } := by
  refine h.congr rfl ?_ (h.running.Sleep hruns.1)
  refine (standsIn_status ..).trans ?_
  rw [hruns.2, standsIn_outside_BLOCKED, ← h.place_of_current hruns.1]
  exact Function.update_eq_self ..

theorem yield (h : s.Scheduled) (hruns : s.Runs t) :
    Scheduled { s with scheduler := s.scheduler.Yield t } where
  placed := by
    unfold Scheduler.Yield
    split
    · exact h.placed
    · rename_i nextThread rest hready
      have hpop := h.placed.pop (k := Queue.ready) hready
      have hplace : Function.update s.place nextThread none t = none := by
        rw [Function.update_apply, h.place_of_current hruns.1, ite_self]
      have hne : t ≠ nextThread := by
        rintro rfl
        have hst := h.mem_ready_iff.mp (hready ▸ List.mem_cons_self)
        rw [h.status_of_current hruns.1] at hst
        cases hst
      refine (hpop.push (k := Queue.ready) hplace).of_eq ?_ ?_
      · rw [Function.update_self, Function.update_idem]
        exact queues_ready ..
      · refine (standsIn_status ..).trans ?_
        rw [standsIn_RUNNING, Function.update_comm hne.symm]
        exact congrArg (Function.update · nextThread none)
          ((standsIn_status ..).trans (by rw [standsIn_READY]))
  running := h.running.Yield hruns.1

/-- The first thread of a queue, if there is one, becomes ready. -/
theorem wake (h : s.Scheduled) {s' : Monitor} {k : Queue} (hne : .ready ≠ k)
    (hqueue : s'.queue =
      Function.update (Function.update s.queue k (s.queue k).tail) .ready s'.scheduler.readyList)
    (hcall : s'.callPoint = s.callPoint)
    (hscheduler : s'.scheduler = s.scheduler.wake (s.queue k).head?) : s'.Scheduled := by
  cases hk : s.queue k with
  | nil =>
      rw [hk] at hqueue hscheduler
      have hsame : s'.scheduler = s.scheduler := hscheduler
      refine h.congr ?_ ?_ ?_
      · rw [hqueue, hsame, List.tail_nil, ← hk, Function.update_eq_self]
        exact Function.update_eq_self Queue.ready s.queue
      · unfold place
        rw [hsame, hcall]
      · rw [hsame]
        exact h.running
  | cons u rest =>
      rw [hk] at hqueue hscheduler
      have hready : s'.scheduler = s.scheduler.ReadyToRun u := hscheduler
      refine ⟨(h.placed.move hne hk).of_eq ?_ ?_, ?_⟩
      · rw [hqueue, hready]
        rfl
      · unfold place
        rw [hready, hcall]
        exact (standsIn_status ..).trans (by rw [standsIn_READY])
      · rw [hready]
        exact h.running.ReadyToRun (status_ne_RUNNING (h.placed.place_head hk))

theorem V (h : s.Scheduled) : s.V.Scheduled := by
  refine h.wake (k := Queue.semaphore) (by simp) ?_ rfl rfl
  refine (queues_ready s.scheduler.readyList ..).trans ?_
  rw [queues_semaphore]
  rfl

theorem signal (h : s.Scheduled) : (s.Signal t c).Scheduled := by
  unfold Signal
  split
  · refine h.wake (k := Queue.condition c) (by simp) ?_ rfl rfl
    refine (queues_ready s.scheduler.readyList ..).trans ?_
    rw [queues_condition]
    rfl
  · exact h.congr rfl rfl h.running

theorem broadcast (h : s.Scheduled) : (s.Broadcast t c).Scheduled := by
  unfold Broadcast
  split
  · refine ⟨(h.placed.moveAll (.condition c) .ready (by simp)).of_eq ?_ ?_, ?_⟩
    · refine (queues_ready s.scheduler.readyList ..).trans ?_
      rw [queues_condition, Scheduler.readyList_wakeAll]
      rfl
    · funext u
      simp only [place, Scheduler.status_wakeAll]
      by_cases hu : u ∈ s.conditions c
      · rw [if_pos hu, standsIn_READY]
        exact (if_pos hu).symm
      · rw [if_neg hu]
        exact (if_neg hu).symm
    · refine h.running.wakeAll fun u hu => ?_
      simp [(h.mem_condition_iff.mp hu).2]
  · exact h.congr rfl rfl h.running

theorem release (h : s.Scheduled) : (s.Release t).Scheduled := by
  unfold Release
  split
  · exact V (h.congr rfl rfl h.running)
  · exact h.congr rfl rfl h.running

theorem acquire (h : s.Scheduled) (ht : s.scheduler.currentThread = some t)
    (wait : Option Nat) : (s.Acquire t wait).Scheduled := by
  by_cases hzero : s.semaphore.value = 0
  · rw [Acquire_asleep hzero]
    refine ⟨(h.placed.push (k := Queue.semaphore) (h.place_of_current ht)).of_eq ?_ ?_,
      h.running.Sleep ht⟩
    · exact queues_semaphore ..
    · exact standsIn_update ..
  · rw [Acquire_through hzero]
    refine h.congr rfl ?_ h.running
    refine (standsIn_callPoint ..).trans ?_
    rw [h.status_of_current ht, standsIn_RUNNING, ← h.place_of_current ht]
    exact Function.update_eq_self ..

theorem enqueue (h : s.Scheduled) (ht : s.scheduler.currentThread = some t) :
    (s.enqueue t c).Scheduled := by
  refine ⟨(h.placed.push (k := Queue.condition c) (h.place_of_current ht)).of_eq ?_ ?_,
    h.running.Sleep ht⟩
  · exact queues_condition ..
  · exact standsIn_update ..

theorem wait (h : s.Scheduled) (ht : s.scheduler.currentThread = some t) :
    (s.Wait t c).Scheduled := by
  unfold Wait
  split
  case isTrue howner =>
    refine h.release.enqueue ?_
    rw [Release, if_pos howner]
    exact (Scheduler.currentThread_wake ..).trans ht
  case isFalse => exact h.congr rfl rfl h.running

theorem step (h : s.Scheduled) {s' : Monitor} {e : Event} (hdoes : s.Does e s') :
    s'.Scheduled := by
  cases hdoes with
  | dispatch hidle hready => exact h.dispatch hidle hready
  | ready haway => exact h.ready haway
  | yield hruns => exact h.yield hruns
  | sleep hruns => exact h.sleep hruns
  | acquire hruns => exact h.acquire hruns.1 none
  | release => exact h.release
  | wait hruns => exact h.wait hruns.1
  | signal => exact h.signal
  | broadcast => exact h.broadcast
  | resume hcurrent => exact h.acquire hcurrent _

end Scheduled

/-- The owner is who holds the lock, and the semaphore knows if there is one. -/
structure Locked (s : Monitor) : Prop where
  owner : ∀ t, s.owner = some t ↔ s.holding t = true
  value : s.semaphore.value = if s.owner = none then 1 else 0

namespace Locked

variable {s s' : Monitor} {t : Tid} {c : Nat}

theorem start : Monitor.start.Locked where
  owner t := by simp [Monitor.start]
  value := rfl

theorem congr (h : s.Locked) (howner : s'.owner = s.owner) (hholding : s'.holding = s.holding)
    (hvalue : s'.semaphore.value = s.semaphore.value) : s'.Locked := by
  obtain ⟨howns, hval⟩ := h
  constructor
  · rwa [howner, hholding]
  · rwa [hvalue, howner]

theorem acquire (h : s.Locked) (t : Tid) (wait : Option Nat) : (s.Acquire t wait).Locked := by
  by_cases hzero : s.semaphore.value = 0
  · rw [Acquire_asleep hzero]
    exact h.congr rfl rfl rfl
  · rw [Acquire_through hzero]
    have hvalue := h.value
    have hfree : s.owner = none := by
      by_contra howned
      rw [if_neg howned] at hvalue
      exact hzero hvalue
    rw [if_pos hfree] at hvalue
    refine ⟨fun u => ?_, ?_⟩
    · by_cases hu : u = t
      · subst hu
        simp
      · have hnot := (h.owner u).not.mp (by simp [hfree])
        simp [hu, hnot, Ne.symm hu]
    · simp only [hvalue]
      rfl

theorem release (h : s.Locked) (t : Tid) : (s.Release t).Locked := by
  unfold Release
  split
  case isTrue howner =>
    have hvalue := h.value
    rw [howner, if_neg (by simp)] at hvalue
    refine ⟨fun u => ?_, ?_⟩
    · by_cases hu : u = t
      · subst hu
        simp [V]
      · have hnot := (h.owner u).not.mp (by simp [howner, Ne.symm hu])
        simp [V, hu, hnot]
    · simp only [V, Semaphore.V, hvalue]
      rfl
  case isFalse => exact h.congr rfl rfl rfl

theorem wait (h : s.Locked) : (s.Wait t c).Locked := by
  unfold Wait
  split
  · exact (h.release t).congr rfl rfl rfl
  · exact h.congr rfl rfl rfl

theorem signal (h : s.Locked) : (s.Signal t c).Locked := by
  unfold Signal
  split <;> exact h.congr rfl rfl rfl

theorem broadcast (h : s.Locked) : (s.Broadcast t c).Locked := by
  unfold Broadcast
  split <;> exact h.congr rfl rfl rfl

theorem step (h : s.Locked) {e : Event} (hdoes : s.Does e s') : s'.Locked := by
  cases hdoes with
  | dispatch | ready | yield | sleep => exact h.congr rfl rfl rfl
  | acquire => exact h.acquire _ none
  | release => exact h.release _
  | wait => exact h.wait
  | signal => exact h.signal
  | broadcast => exact h.broadcast
  | resume => exact h.acquire _ _

end Locked

theorem Asleep.ne_of_outside {s : Monitor} {t u : Tid} {c : Nat} (h : s.Asleep u c)
    (ht : s.callPoint t = .outside) : u ≠ t := by
  rintro rfl
  have hcall := h.1
  rw [ht] at hcall
  cases hcall

theorem Asleep.ne_of_ready {s : Monitor} {t u : Tid} {c : Nat} {rest : List Tid}
    (h : s.Asleep u c) (hs : s.Scheduled) (hready : s.scheduler.readyList = t :: rest) :
    u ≠ t := by
  rintro rfl
  have hst := hs.mem_ready_iff.mp (hready ▸ List.mem_cons_self)
  rw [h.2] at hst
  cases hst

/-- The last `Wait` that `t` has called is for `c`, and `later` came after
its start. -/
def Since (trace : List Action) (t : Tid) (c : Nat) (later : List Action) : Prop :=
  ∃ earlier, trace = later ++ .started t c :: earlier ∧ ∀ d, .started t d ∉ later

/-- There was a signal after the last `Wait` of `t`, which is for `c`. -/
def SignalledSince (trace : List Action) (t : Tid) (c : Nat) : Prop :=
  ∃ later, Since trace t c later ∧ .signalled c ∈ later

theorem Since.append {trace later : List Action} {t : Tid} {c : Nat}
    (h : Since trace t c later) (news : List Action) (hnews : ∀ d, .started t d ∉ news) :
    Since (news ++ trace) t c (news ++ later) := by
  obtain ⟨earlier, rfl, hlater⟩ := h
  refine ⟨earlier, (List.append_assoc ..).symm, fun d hd => ?_⟩
  rcases List.mem_append.mp hd with hd | hd
  · exact hnews d hd
  · exact hlater d hd

/-- Who is in a `Wait` sleeps there, or was signalled. -/
def Recorded (s : Monitor) : Prop :=
  ∀ t c, s.InsideWait t c →
    ∃ later, Since s.trace t c later ∧ (s.Asleep t c ∨ .signalled c ∈ later)

namespace Recorded

variable {s s' : Monitor} {t : Tid} {c : Nat}

/-- Threads stay in their calls while the trace goes on, and wake up only
from a signal. -/
theorem advance (h : s.Recorded) (news : List Action) (htrace : s'.trace = news ++ s.trace)
    (hinside : ∀ t c, s'.InsideWait t c → s.InsideWait t c)
    (hstarted : ∀ t c, s'.InsideWait t c → ∀ d, .started t d ∉ news)
    (hasleep : ∀ t c, s'.InsideWait t c → s.Asleep t c →
      s'.Asleep t c ∨ .signalled c ∈ news) : s'.Recorded := by
  intro t c hin
  obtain ⟨later, hsince, hlater⟩ := h t c (hinside t c hin)
  refine ⟨news ++ later, htrace ▸ hsince.append news (hstarted t c hin), ?_⟩
  rcases hlater with hsleeps | hsignal
  · exact (hasleep t c hin hsleeps).imp_right fun hsignal => List.mem_append_left _ hsignal
  · exact .inr (List.mem_append_right _ hsignal)

/-- Nobody wakes up from a `Wait`. -/
theorem keep (h : s.Recorded) (hcall : s'.callPoint = s.callPoint) (htrace : s'.trace = s.trace)
    (hstatus : ∀ t c, s.Asleep t c → s'.scheduler.status t = .BLOCKED) : s'.Recorded := by
  refine h.advance [] htrace ?_ ?_ ?_
  · intro t c hin
    rwa [InsideWait, hcall] at hin
  · exact fun t c _ d => List.not_mem_nil
  · intro t c _ hsleeps
    exact .inl ⟨by rw [hcall]; exact hsleeps.1, hstatus t c hsleeps⟩

theorem start : Monitor.start.Recorded := by
  intro t c hin
  rcases hin with hin | hin <;> cases hin

theorem dispatch (h : s.Recorded) (hs : s.Scheduled) {rest : List Tid}
    (hready : s.scheduler.readyList = t :: rest) :
    Recorded { s with scheduler := { s.scheduler with readyList := rest }.Run t } := by
  refine h.keep rfl rfl fun u d hsleeps => ?_
  have hne := hsleeps.ne_of_ready hs hready
  simp [Scheduler.Run, hne, hsleeps.2]

theorem ready (h : s.Recorded) (haway : s.Away t) :
    Recorded { s with scheduler := s.scheduler.ReadyToRun t } := by
  refine h.keep rfl rfl fun u d hsleeps => ?_
  simp [Scheduler.ReadyToRun, hsleeps.ne_of_outside haway.1, hsleeps.2]

theorem yield (h : s.Recorded) (hs : s.Scheduled) (hruns : s.Runs t) :
    Recorded { s with scheduler := s.scheduler.Yield t } := by
  refine h.keep rfl rfl fun u d hsleeps => ?_
  unfold Scheduler.Yield
  split
  · exact hsleeps.2
  · rename_i nextThread rest hready
    have hnext := hsleeps.ne_of_ready hs hready
    have hu := hsleeps.ne_of_outside hruns.2
    simp [Scheduler.Run, Scheduler.ReadyToRun, hnext, hu, hsleeps.2]

theorem sleep (h : s.Recorded) (hruns : s.Runs t) :
    Recorded { s with scheduler := s.scheduler.Sleep t } := by
  refine h.keep rfl rfl fun u d hsleeps => ?_
  simp [Scheduler.Sleep, hsleeps.ne_of_outside hruns.2, hsleeps.2]

/-- A thread at the test of `P` has left the `Sleep` of its `Wait`. -/
theorem acquire (h : s.Recorded) (hs : s.Scheduled) (ht : s.scheduler.currentThread = some t)
    {wait : Option Nat} (hwait : ∀ c, wait = some c → s.InsideWait t c) :
    (s.Acquire t wait).Recorded := by
  have hawake : ∀ {u d}, s.Asleep u d → u ≠ t := by
    rintro u d hsleeps rfl
    have hst := hsleeps.2
    rw [hs.status_of_current ht] at hst
    cases hst
  by_cases hzero : s.semaphore.value = 0
  · rw [Acquire_asleep hzero]
    refine h.advance [] rfl (fun u d hin => ?_) (fun u d _ e => List.not_mem_nil)
      fun u d _ hsleeps => ?_
    · by_cases hu : u = t
      · subst hu
        simp only [InsideWait, Function.update_self] at hin
        rcases hin with hin | hin
        · cases hin
        · cases hin
          exact hwait d rfl
      · simpa [InsideWait, hu] using hin
    · left
      simpa [Asleep, Scheduler.Sleep, hawake hsleeps] using hsleeps
  · rw [Acquire_through hzero]
    refine h.advance [] rfl (fun u d hin => ?_) (fun u d _ e => List.not_mem_nil)
      fun u d _ hsleeps => ?_
    · by_cases hu : u = t
      · subst hu
        simp [InsideWait] at hin
      · simpa [InsideWait, hu] using hin
    · left
      simpa [Asleep, hawake hsleeps] using hsleeps

theorem release (h : s.Recorded) (hs : s.Scheduled) (t : Tid) : (s.Release t).Recorded := by
  unfold Release
  split
  · refine h.keep rfl rfl fun u d hsleeps => ?_
    simp only [V, Scheduler.status_wake]
    rw [if_neg, hsleeps.2]
    intro hhead
    obtain ⟨-, wait, hwait⟩ := hs.status_of_mem_semaphore (List.mem_of_mem_head? hhead)
    rw [hsleeps.1] at hwait
    cases hwait
  · exact h.keep rfl rfl fun u d hsleeps => hsleeps.2

theorem enqueue (h : s.Recorded) : (s.enqueue t c).Recorded := by
  intro u d hin
  by_cases hu : u = t
  · subst hu
    simp only [InsideWait, Monitor.enqueue, Function.update_self] at hin
    rcases hin with hin | hin
    · cases hin
      exact ⟨[], ⟨s.trace, rfl, fun e => List.not_mem_nil⟩, .inl (by
        simp [Asleep, Monitor.enqueue, Scheduler.Sleep])⟩
    · cases hin
  · have hin' : s.InsideWait u d := by simpa [InsideWait, Monitor.enqueue, hu] using hin
    obtain ⟨later, hsince, hlater⟩ := h u d hin'
    refine ⟨.started t c :: later, hsince.append [.started t c] (by simp [hu]), ?_⟩
    rcases hlater with hsleeps | hsignal
    · left
      simpa [Asleep, Monitor.enqueue, Scheduler.Sleep, hu] using hsleeps
    · exact .inr (List.mem_cons_of_mem _ hsignal)

theorem wait (h : s.Recorded) (hs : s.Scheduled) : (s.Wait t c).Recorded := by
  unfold Wait
  split
  · exact (h.release hs t).enqueue
  · exact h.keep rfl rfl fun u d hsleeps => hsleeps.2

theorem signal (h : s.Recorded) (hs : s.Scheduled) : (s.Signal t c).Recorded := by
  unfold Signal
  split
  · refine h.advance [.signalled c] rfl (fun u d hin => hin) (by simp) fun u d _ hsleeps => ?_
    by_cases hhead : (s.conditions c).head? = some u
    · right
      have hc := hs.mem_condition_iff.mp (List.mem_of_mem_head? hhead)
      rw [Asleep, hsleeps.1] at hc
      cases hc.1
      exact List.mem_singleton_self _
    · refine .inl ⟨hsleeps.1, ?_⟩
      rw [Scheduler.status_wake, if_neg hhead, hsleeps.2]
  · exact h.keep rfl rfl fun u d hsleeps => hsleeps.2

theorem broadcast (h : s.Recorded) (hs : s.Scheduled) : (s.Broadcast t c).Recorded := by
  unfold Broadcast
  split
  · refine h.advance [.signalled c] rfl (fun u d hin => hin) (by simp) fun u d _ hsleeps => ?_
    by_cases hmem : u ∈ s.conditions c
    · right
      have hc := hs.mem_condition_iff.mp hmem
      rw [Asleep, hsleeps.1] at hc
      cases hc.1
      exact List.mem_singleton_self _
    · refine .inl ⟨hsleeps.1, ?_⟩
      simp only [Scheduler.status_wakeAll]
      rw [if_neg hmem, hsleeps.2]
  · exact h.keep rfl rfl fun u d hsleeps => hsleeps.2

theorem step (h : s.Recorded) (hs : s.Scheduled) {e : Event} (hdoes : s.Does e s') :
    s'.Recorded := by
  cases hdoes with
  | dispatch _ hready => exact h.dispatch hs hready
  | ready haway => exact h.ready haway
  | yield hruns => exact h.yield hs hruns
  | sleep hruns => exact h.sleep hruns
  | acquire hruns => exact h.acquire hs hruns.1 (fun c hc => nomatch hc)
  | release => exact h.release hs _
  | wait => exact h.wait hs
  | signal => exact h.signal hs
  | broadcast => exact h.broadcast hs
  | resume hcurrent hwait =>
      refine h.acquire hs hcurrent fun c hc => ?_
      subst hc
      rcases hwait with hwait | ⟨d, hd, hwait⟩
      · exact .inr hwait
      · cases hd
        exact .inl hwait

end Recorded

/-- The invariants together. -/
structure Sound (s : Monitor) : Prop where
  scheduled : s.Scheduled
  locked : s.Locked
  recorded : s.Recorded

namespace Sound

variable {s s' : Monitor} {t : Tid} {c : Nat} {e : Event}

theorem start : Monitor.start.Sound :=
  ⟨.start, .start, .start⟩

theorem step (h : s.Sound) (hstep : Monitor.step s e = some s') : s'.Sound := by
  obtain ⟨-, hdoes⟩ := does_of_step hstep
  exact ⟨h.scheduled.step hdoes, h.locked.step hdoes, h.recorded.step h.scheduled hdoes⟩

theorem of_exec {events : List Event} (hrun : exec Monitor.step Monitor.start events = some s) :
    s.Sound :=
  exec_induction (fun h hstep => step h hstep) start hrun

/-- A thread that gets through the `P` at the end of its `Wait`. -/
theorem returned_acquire (h : s.Sound) (ht : s.scheduler.currentThread = some t)
    {wait : Option Nat} (hin : s.InsideWait t c) (hwait : wait = some c)
    (hout : ¬(s.Acquire t wait).InsideWait t c) :
    (s.Acquire t wait).owner = some t ∧ (s.Acquire t wait).holding t = true ∧
      SignalledSince (s.Acquire t wait).trace t c := by
  subst hwait
  by_cases hzero : s.semaphore.value = 0
  · rw [Acquire_asleep hzero] at hout
    exact absurd (.inr (Function.update_self ..)) hout
  · rw [Acquire_through hzero]
    refine ⟨rfl, Function.update_self .., ?_⟩
    obtain ⟨later, hsince, hsleeps | hsignal⟩ := h.recorded t c hin
    · have hst := hsleeps.2
      rw [h.scheduled.status_of_current ht] at hst
      cases hst
    · exact ⟨later, hsince, hsignal⟩

/-- `Wait` returns with the lock, and after a signal. -/
theorem returned (h : s.Sound) (hdoes : s.Does e s') (hin : s.InsideWait t c)
    (hout : ¬s'.InsideWait t c) :
    s'.owner = some t ∧ s'.holding t = true ∧ SignalledSince s'.trace t c := by
  have hbusy : ∀ {u}, s.callPoint u = .outside → t ≠ u := by
    rintro u hu rfl
    rcases hin with hin | hin
    · cases hu.symm.trans hin
    · cases hu.symm.trans hin
  cases hdoes with
  | dispatch | ready | yield | sleep => exact absurd hin hout
  | release => exact absurd (hin.congr (by rw [callPoint_Release])) hout
  | signal => exact absurd (hin.congr (by rw [callPoint_Signal])) hout
  | broadcast => exact absurd (hin.congr (by rw [callPoint_Broadcast])) hout
  | acquire hruns =>
      exact absurd (hin.congr (callPoint_Acquire_of_ne _ (hbusy hruns.2) _)) hout
  | wait hruns => exact absurd (hin.congr (callPoint_Wait_of_ne _ _ (hbusy hruns.2))) hout
  | @resume u wait hcurrent hwait =>
      by_cases hu : t = u
      · subst hu
        refine h.returned_acquire hcurrent hin ?_ hout
        rcases hin with hin | hin
        · rcases hwait with hwait | ⟨d, rfl, hwait⟩
          · cases hin.symm.trans hwait
          · cases hin.symm.trans hwait
            rfl
        · rcases hwait with hwait | ⟨d, rfl, hwait⟩
          · cases hin.symm.trans hwait
            rfl
          · cases hin.symm.trans hwait
      · exact absurd (hin.congr (callPoint_Acquire_of_ne _ hu _)) hout

/-- `Signal` wakes one thread if there is one. -/
theorem signalled (h : s.Sound) (hholding : s.holding t = true) (hsome : ∃ u, s.Asleep u c) :
    ∃ u, s.Asleep u c ∧ (s.Signal t c).scheduler = s.scheduler.ReadyToRun u := by
  obtain ⟨u, hu⟩ := hsome
  rw [Signal, if_pos ((h.locked.owner t).mpr hholding)]
  cases hqueue : s.conditions c with
  | nil =>
      have hmem := h.scheduled.mem_condition_iff.mpr hu
      rw [hqueue] at hmem
      cases hmem
  | cons v rest =>
      have hmem : v ∈ s.conditions c := by
        rw [hqueue]
        exact List.mem_cons_self
      exact ⟨v, h.scheduled.mem_condition_iff.mp hmem, rfl⟩

/-- `Broadcast` wakes all of them. -/
theorem broadcasted (h : s.Sound) (hholding : s.holding t = true) :
    (s.Broadcast t c).scheduler.status =
      fun u => if s.Asleep u c then .READY else s.scheduler.status u := by
  rw [Broadcast, if_pos ((h.locked.owner t).mpr hholding)]
  refine (Scheduler.status_wakeAll ..).trans ?_
  funext u
  simp only [h.scheduled.mem_condition_iff]

/-- No `ASSERT` fails but that of a `Release` without the lock. -/
theorem asserts (h : s.Sound) (hstep : Monitor.step s e = some s') (hfailed : s'.failed = true) :
    ∃ t, e = .release t ∧ s.holding t = false := by
  obtain ⟨halive, hdoes⟩ := does_of_step hstep
  have hsame : s'.failed ≠ s.failed := by
    rw [hfailed, halive]
    simp
  have howner : ∀ {t}, s.holding t = true → s.owner = some t := fun ht =>
    (h.locked.owner _).mpr ht
  cases hdoes with
  | dispatch | ready | yield | sleep => exact absurd rfl hsame
  | acquire => exact absurd (failed_Acquire ..) hsame
  | resume => exact absurd (failed_Acquire ..) hsame
  | @release t =>
      refine ⟨t, rfl, ?_⟩
      by_contra hholding
      exact hsame (failed_Release (howner (by simpa using hholding)))
  | wait _ hholding => exact absurd (failed_Wait (howner hholding) _) hsame
  | signal _ hholding => exact absurd (by rw [Signal, if_pos (howner hholding)]) hsame
  | broadcast _ hholding => exact absurd (by rw [Broadcast, if_pos (howner hholding)]) hsame

/-- Where only the holder of the lock comes to a `Release`, none fails. -/
theorem alive_of_release (h : s.Sound) (hstep : Monitor.step s e = some s')
    (hrelease : ∀ t, e = .release t → s.Runs t → s.holding t = true) : s'.failed = false := by
  by_contra hfailed
  obtain ⟨t, rfl, hfree⟩ := h.asserts hstep (by simpa using hfailed)
  obtain ⟨-, hdoes⟩ := does_of_step hstep
  cases hdoes with
  | release hruns =>
      rw [hrelease t rfl hruns] at hfree
      cases hfree

end Sound

/-- A Mesa monitor: one holder of the lock, which the owner and the value
tell; `Wait` returns with the lock after a signal; `Signal` wakes one of the
sleeping threads and `Broadcast` all; and no `ASSERT` fails but that of a
`Release` without the lock. -/
structure Correct (s : Monitor) : Prop where
  exclusive : ∀ t u, s.holding t = true → s.holding u = true → t = u
  owner : ∀ t, s.owner = some t ↔ s.holding t = true
  value : s.semaphore.value = 0 ↔ ∃ t, s.holding t = true
  returns : ∀ e s' t c, step s e = some s' → s.InsideWait t c → ¬s'.InsideWait t c →
    s'.owner = some t ∧ s'.holding t = true ∧ SignalledSince s'.trace t c
  signal : ∀ t c s', step s (.signal t c) = some s' → (∃ u, s.Asleep u c) →
    ∃ u, s.Asleep u c ∧ s'.scheduler = s.scheduler.ReadyToRun u
  broadcast : ∀ t c s', step s (.broadcast t c) = some s' →
    s'.scheduler.status = fun u => if s.Asleep u c then .READY else s.scheduler.status u
  ready : ∀ t, s.scheduler.status t = .READY ↔ t ∈ s.scheduler.readyList
  asserts : ∀ e s', step s e = some s' → s'.failed = true →
    ∃ t, e = .release t ∧ s.holding t = false

theorem Sound.correct {s : Monitor} (h : s.Sound) : s.Correct where
  exclusive t u ht hu := by
    rw [← h.locked.owner] at ht hu
    exact Option.some.inj (ht.symm.trans hu)
  owner := h.locked.owner
  value := by
    rw [h.locked.value]
    cases howner : s.owner with
    | none =>
        have hnone : ¬∃ t, s.holding t = true := by
          rintro ⟨t, ht⟩
          rw [← h.locked.owner, howner] at ht
          cases ht
        simpa using hnone
    | some t => simpa using ⟨t, (h.locked.owner t).mp howner⟩
  returns e s' t c hstep := h.returned (does_of_step hstep).2
  signal t c s' hstep hsome := by
    obtain ⟨-, hdoes⟩ := does_of_step hstep
    cases hdoes with
    | signal _ hholding => exact h.signalled hholding hsome
  broadcast t c s' hstep := by
    obtain ⟨-, hdoes⟩ := does_of_step hstep
    cases hdoes with
    | broadcast _ hholding => exact h.broadcasted hholding
  ready t := by
    rw [← h.scheduled.mem_ready_iff]
  asserts e s' := h.asserts

/-- **Lock and Condition are a Mesa monitor** in every state that any
schedule of any threads leads to. -/
theorem correct_of_exec {events : List Event} {s : Monitor}
    (hrun : exec step start events = some s) : s.Correct :=
  (Sound.of_exec hrun).correct

/-- Thread 0 waits for condition 7, thread 1 signals it, and thread 0 gets
the lock back. -/
def signalledWait : List Event :=
  [.ready 1, .acquire 0, .wait 0 7, .dispatch, .acquire 1, .signal 1 7, .release 1, .yield 1,
    .resume 0]

theorem correct_signalledWait :
    ∃ s, exec step start signalledWait = some s ∧ s.owner = some 0 ∧ s.Correct := by
  have howner : (exec step start signalledWait).map Monitor.owner = some (some 0) := rfl
  obtain ⟨s, hrun, howner⟩ := Option.map_eq_some_iff.mp howner
  exact ⟨s, hrun, howner, correct_of_exec hrun⟩

end Monitor

end DistributedAscii.NachOS
