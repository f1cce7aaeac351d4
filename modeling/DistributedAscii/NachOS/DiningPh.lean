import DistributedAscii.NachOS.Mesa

/-!
# NachOS — the dining philosophers

`threads/diningph.cc`: five threads, a lock `dp`, and a condition for each
philosopher, which has his number. Calls of the lock and the conditions are
events of the monitor; the statements between them are events of their own,
since an interrupt can come before each of them.

`Fitting` says where the lock is held: its holder is alone at the places
between `Acquire` and `Release`.
-/

namespace DistributedAscii.NachOS

open Lib.Runs

inductive PhState where
  | Thinking
  | Hungry
  | Eating
deriving DecidableEq, Repr

/-- The two operations of the monitor. -/
inductive PhCall where
  | pickup
  | putdown
deriving DecidableEq, Repr

/-- Whose forks are tested: those of the philosopher who calls, or of one of
his neighbours. -/
inductive Seat where
  | own
  | left
  | right
deriving DecidableEq, Repr

instance neZero_philosophers : NeZero 5 := ⟨by decide⟩

def Seat.of (who : Fin 5) : Seat → Fin 5
  | .own => who
  | .left => who + 4
  | .right => who + 1

/-- Where a philosopher is: between `putdown` and `pickup`, between `pickup`
and `putdown`, in an operation of the lock or the condition or right behind
it, or in front of a statement of `pickup`, `putdown` or `test`. -/
inductive PhPoint where
  | thinking
  | eating
  | inAcquire (call : PhCall)
  | test (seat : Seat)
  | eat (seat : Seat)
  | signal (seat : Seat)
  | tested
  | inWait
  | finish (call : PhCall)
  | inRelease (call : PhCall)
deriving DecidableEq, Repr

/-- What follows a `test`. -/
def Seat.behind : Seat → PhPoint
  | .own => .tested
  | .left => .test .right
  | .right => .finish .putdown

/-- The places that only the holder of the lock comes to. -/
def PhPoint.Held : PhPoint → Prop
  | .test _ | .eat _ | .signal _ | .tested | .finish _ => True
  | _ => False

structure DiningPh where
  monitor : Monitor
  state : Fin 5 → PhState
  point : Fin 5 → PhPoint

namespace DiningPh

/-- The thread of a philosopher; thread 0 has made them. -/
def thread (who : Fin 5) : Tid :=
  who.val + 1

/-- The first five are the monitor's, and `resume` goes on in an operation of
it; `advance` is the next statement of a philosopher. -/
inductive Event where
  | dispatch
  | ready (t : Tid)
  | yield (t : Tid)
  | sleep (t : Tid)
  | resume (t : Tid)
  | advance (who : Fin 5)
deriving DecidableEq, Repr

/-- `DiningPh::DiningPh`. -/
def start : DiningPh where
  monitor := .start
  state _ := .Thinking
  point _ := .thinking

def moveTo (s : DiningPh) (who : Fin 5) (p : PhPoint) : DiningPh :=
  { s with point := Function.update s.point who p }

def setState (s : DiningPh) (who : Fin 5) (st : PhState) : DiningPh :=
  { s with state := Function.update s.state who st }

/-- An event of the monitor, if it is possible. -/
def perform (s : DiningPh) (e : Monitor.Event) : Option DiningPh :=
  (s.monitor.step e).map fun monitor => { s with monitor }

/-- A statement, if the thread has the CPU. -/
def assign (s : DiningPh) (who : Fin 5) (s' : DiningPh) : Option DiningPh :=
  if s.monitor.Runs (thread who) then some s' else none

/-- The condition of `test`. -/
def CanEat (s : DiningPh) (i : Fin 5) : Prop :=
  s.state (i + 4) ≠ .Eating ∧ s.state i = .Hungry ∧ s.state (i + 1) ≠ .Eating

instance (s : DiningPh) (i : Fin 5) : Decidable (s.CanEat i) :=
  inferInstanceAs (Decidable (_ ∧ _ ∧ _))

/-- `pickup`, `putdown` and the `test` in them, one statement at a time. -/
def advance (s : DiningPh) (who : Fin 5) : Option DiningPh :=
  match s.point who with
  | .thinking => (s.moveTo who (.inAcquire .pickup)).perform (.acquire (thread who))
  | .inAcquire .pickup => s.assign who ((s.setState who .Hungry).moveTo who (.test .own))
  | .tested =>
      if s.state who = .Hungry then
        (s.moveTo who .inWait).perform (.wait (thread who) who)
      else s.assign who (s.moveTo who (.finish .pickup))
  -- `if ( state[ who ] == Hungry )`: there is no second test behind the `Wait`
  | .inWait => (s.moveTo who (.inRelease .pickup)).perform (.release (thread who))
  | .inRelease .pickup => s.assign who (s.moveTo who .eating)
  | .eating => (s.moveTo who (.inAcquire .putdown)).perform (.acquire (thread who))
  | .inAcquire .putdown => s.assign who ((s.setState who .Thinking).moveTo who (.test .left))
  | .inRelease .putdown => s.assign who (s.moveTo who .thinking)
  | .finish call => (s.moveTo who (.inRelease call)).perform (.release (thread who))
  | .test seat =>
      s.assign who (s.moveTo who (if s.CanEat (seat.of who) then .eat seat else seat.behind))
  | .eat seat => s.assign who ((s.setState (seat.of who) .Eating).moveTo who (.signal seat))
  | .signal seat => (s.moveTo who seat.behind).perform (.signal (thread who) (seat.of who))

/-- Nobody falls asleep in a call outside the operations of the monitor. -/
def step (s : DiningPh) : Event → Option DiningPh
  | .dispatch => s.perform .dispatch
  | .ready t => s.perform (.ready t)
  | .yield t => s.perform (.yield t)
  | .sleep t =>
      if ∀ who, thread who = t → s.point who = .thinking ∨ s.point who = .eating then
        s.perform (.sleep t)
      else none
  | .resume t => s.perform (.resume t)
  | .advance who => s.advance who

section Updates

variable (s : DiningPh) (who : Fin 5) (p : PhPoint) (st : PhState)

@[simp] theorem moveTo_monitor : (s.moveTo who p).monitor = s.monitor := rfl

@[simp] theorem moveTo_state : (s.moveTo who p).state = s.state := rfl

@[simp] theorem setState_monitor : (s.setState who st).monitor = s.monitor := rfl

@[simp] theorem setState_point : (s.setState who st).point = s.point := rfl

@[simp] theorem moveTo_point_self : (s.moveTo who p).point who = p :=
  Function.update_self ..

theorem moveTo_point_of_ne {other : Fin 5} (h : other ≠ who) :
    (s.moveTo who p).point other = s.point other :=
  Function.update_of_ne h ..

@[simp] theorem setState_state_self : (s.setState who st).state who = st :=
  Function.update_self ..

theorem setState_state_of_ne {other : Fin 5} (h : other ≠ who) :
    (s.setState who st).state other = s.state other :=
  Function.update_of_ne h ..

/-- A philosopher who stays where he is. -/
theorem moveTo_self : s.moveTo who (s.point who) = s := by
  simp [moveTo]

end Updates

theorem thread_injective : Function.Injective thread := by
  intro i j h
  exact Fin.ext (Nat.succ.inj h)

@[simp] theorem thread_inj {i j : Fin 5} : thread i = thread j ↔ i = j :=
  thread_injective.eq_iff

/-- What an event does, case by case. -/
inductive Does (s : DiningPh) : Event → DiningPh → Prop where
  | idle {e monitor} (howner : monitor.owner = s.monitor.owner)
      (hholding : monitor.holding = s.monitor.holding)
      (hcall : monitor.callPoint = s.monitor.callPoint)
      (hconditions : monitor.conditions = s.monitor.conditions) : Does s e { s with monitor }
  | resume {t wait} (hcurrent : s.monitor.scheduler.currentThread = some t)
      (hwait : s.monitor.callPoint t = .inP wait ∨
        ∃ c, wait = some c ∧ s.monitor.callPoint t = .inWait c) :
      Does s (.resume t) { s with monitor := s.monitor.Acquire t wait }
  | acquire {who call} (hruns : s.monitor.Runs (thread who))
      (hpoint : s.point who = match call with | .pickup => .thinking | .putdown => .eating) :
      Does s (.advance who)
        { s.moveTo who (.inAcquire call) with
          monitor := s.monitor.Acquire (thread who) none }
  | hungry {who} (hruns : s.monitor.Runs (thread who))
      (hpoint : s.point who = .inAcquire .pickup) :
      Does s (.advance who) ((s.setState who .Hungry).moveTo who (.test .own))
  | full {who} (hruns : s.monitor.Runs (thread who))
      (hpoint : s.point who = .inAcquire .putdown) :
      Does s (.advance who) ((s.setState who .Thinking).moveTo who (.test .left))
  | passes {who seat} (hruns : s.monitor.Runs (thread who)) (hpoint : s.point who = .test seat)
      (heat : s.CanEat (seat.of who)) : Does s (.advance who) (s.moveTo who (.eat seat))
  | fails {who seat} (hruns : s.monitor.Runs (thread who)) (hpoint : s.point who = .test seat)
      (hnot : ¬s.CanEat (seat.of who)) : Does s (.advance who) (s.moveTo who seat.behind)
  | eat {who seat} (hruns : s.monitor.Runs (thread who)) (hpoint : s.point who = .eat seat) :
      Does s (.advance who) ((s.setState (seat.of who) .Eating).moveTo who (.signal seat))
  | signal {who seat} (hruns : s.monitor.Runs (thread who)) (hpoint : s.point who = .signal seat) :
      Does s (.advance who)
        { s.moveTo who seat.behind with
          monitor := s.monitor.Signal (thread who) (seat.of who) }
  | wait {who} (hruns : s.monitor.Runs (thread who)) (hpoint : s.point who = .tested)
      (hstate : s.state who = .Hungry) :
      Does s (.advance who)
        { s.moveTo who .inWait with monitor := s.monitor.Wait (thread who) who }
  | skip {who} (hruns : s.monitor.Runs (thread who)) (hpoint : s.point who = .tested)
      (hstate : s.state who ≠ .Hungry) : Does s (.advance who) (s.moveTo who (.finish .pickup))
  | release {who call} (hruns : s.monitor.Runs (thread who))
      (hpoint : s.point who = .finish call ∨ s.point who = .inWait ∧ call = .pickup) :
      Does s (.advance who)
        { s.moveTo who (.inRelease call) with monitor := s.monitor.Release (thread who) }
  | leave {who call} (hruns : s.monitor.Runs (thread who))
      (hpoint : s.point who = .inRelease call) :
      Does s (.advance who)
        (s.moveTo who (match call with | .pickup => .eating | .putdown => .thinking))

theorem perform_eq_some {s s' : DiningPh} {e : Monitor.Event} (h : s.perform e = some s') :
    ∃ monitor, s.monitor.Does e monitor ∧ s' = { s with monitor } := by
  obtain ⟨monitor, hstep, rfl⟩ := Option.map_eq_some_iff.mp h
  exact ⟨monitor, (Monitor.does_of_step hstep).2, rfl⟩

theorem step_of_perform {s s' : DiningPh} {e : Monitor.Event} (h : s.perform e = some s') :
    s.monitor.step e = some s'.monitor := by
  obtain ⟨monitor, hstep, rfl⟩ := Option.map_eq_some_iff.mp h
  exact hstep

theorem does_of_advance {s s' : DiningPh} {who : Fin 5} (h : s.advance who = some s') :
    s.Does (.advance who) s' := by
  unfold advance at h
  split at h
  case h_1 hpoint =>
    obtain ⟨monitor, hdoes, rfl⟩ := perform_eq_some h
    cases hdoes with
    | acquire hruns => exact @Does.acquire s who .pickup hruns hpoint
  case h_2 hpoint =>
    obtain ⟨hruns, h⟩ := Option.ite_none_right_eq_some.mp h
    cases h
    exact .hungry hruns hpoint
  case h_3 hpoint =>
    split at h
    case isTrue hstate =>
      obtain ⟨monitor, hdoes, rfl⟩ := perform_eq_some h
      cases hdoes with
      | wait hruns => exact .wait hruns hpoint hstate
    case isFalse hstate =>
      obtain ⟨hruns, h⟩ := Option.ite_none_right_eq_some.mp h
      cases h
      exact .skip hruns hpoint hstate
  case h_4 hpoint =>
    obtain ⟨monitor, hdoes, rfl⟩ := perform_eq_some h
    cases hdoes with
    | release hruns => exact .release hruns (.inr ⟨hpoint, rfl⟩)
  case h_5 hpoint =>
    obtain ⟨hruns, h⟩ := Option.ite_none_right_eq_some.mp h
    cases h
    exact @Does.leave s who .pickup hruns hpoint
  case h_6 hpoint =>
    obtain ⟨monitor, hdoes, rfl⟩ := perform_eq_some h
    cases hdoes with
    | acquire hruns => exact @Does.acquire s who .putdown hruns hpoint
  case h_7 hpoint =>
    obtain ⟨hruns, h⟩ := Option.ite_none_right_eq_some.mp h
    cases h
    exact .full hruns hpoint
  case h_8 hpoint =>
    obtain ⟨hruns, h⟩ := Option.ite_none_right_eq_some.mp h
    cases h
    exact @Does.leave s who .putdown hruns hpoint
  case h_9 call hpoint =>
    obtain ⟨monitor, hdoes, rfl⟩ := perform_eq_some h
    cases hdoes with
    | release hruns => exact .release hruns (.inl hpoint)
  case h_10 seat hpoint =>
    obtain ⟨hruns, h⟩ := Option.ite_none_right_eq_some.mp h
    cases h
    split
    case isTrue heat => exact .passes hruns hpoint heat
    case isFalse hnot => exact .fails hruns hpoint hnot
  case h_11 seat hpoint =>
    obtain ⟨hruns, h⟩ := Option.ite_none_right_eq_some.mp h
    cases h
    exact .eat hruns hpoint
  case h_12 seat hpoint =>
    obtain ⟨monitor, hdoes, rfl⟩ := perform_eq_some h
    cases hdoes with
    | signal hruns => exact .signal hruns hpoint

theorem does_of_step {s s' : DiningPh} {e : Event} (h : s.step e = some s') : s.Does e s' := by
  cases e with
  | dispatch =>
      obtain ⟨monitor, hdoes, rfl⟩ := perform_eq_some h
      cases hdoes
      exact .idle rfl rfl rfl rfl
  | ready t =>
      obtain ⟨monitor, hdoes, rfl⟩ := perform_eq_some h
      cases hdoes
      exact .idle rfl rfl rfl rfl
  | yield t =>
      obtain ⟨monitor, hdoes, rfl⟩ := perform_eq_some h
      cases hdoes
      exact .idle rfl rfl rfl rfl
  | sleep t =>
      obtain ⟨-, h⟩ := Option.ite_none_right_eq_some.mp h
      obtain ⟨monitor, hdoes, rfl⟩ := perform_eq_some h
      cases hdoes
      exact .idle rfl rfl rfl rfl
  | resume t =>
      obtain ⟨monitor, hdoes, rfl⟩ := perform_eq_some h
      cases hdoes with
      | resume hcurrent hwait => exact .resume hcurrent hwait
  | advance who => exact does_of_advance h

/-- The monitor takes a step of its own or none, and no `Release` from
elsewhere than the end of a call. -/
theorem monitor_of_step {s s' : DiningPh} {e : Event} (h : s.step e = some s') :
    s'.monitor = s.monitor ∨ ∃ e', s.monitor.step e' = some s'.monitor ∧
      ∀ t, e' = .release t → ∃ who, t = thread who ∧
        (s.point who = .inWait ∨ ∃ call, s.point who = .finish call) := by
  cases e with
  | dispatch | ready | yield | resume => exact .inr ⟨_, step_of_perform h, nofun⟩
  | sleep t =>
      obtain ⟨-, h⟩ := Option.ite_none_right_eq_some.mp h
      exact .inr ⟨_, step_of_perform h, nofun⟩
  | advance who =>
      simp only [step, advance] at h
      split at h
      case h_1 | h_6 | h_12 =>
        have hmonitor := step_of_perform h
        exact .inr ⟨_, hmonitor, nofun⟩
      case h_2 | h_5 | h_7 | h_8 | h_10 | h_11 =>
        obtain ⟨-, h⟩ := Option.ite_none_right_eq_some.mp h
        cases h
        exact .inl rfl
      case h_3 =>
        split at h
        · have hmonitor := step_of_perform h
          exact .inr ⟨_, hmonitor, nofun⟩
        · obtain ⟨-, h⟩ := Option.ite_none_right_eq_some.mp h
          cases h
          exact .inl rfl
      case h_4 hpoint =>
        have hmonitor := step_of_perform h
        refine .inr ⟨_, hmonitor, fun u hu => ⟨who, ?_, .inl hpoint⟩⟩
        cases hu
        rfl
      case h_9 call hpoint =>
        have hmonitor := step_of_perform h
        refine .inr ⟨_, hmonitor, fun u hu => ⟨who, ?_, .inr ⟨call, hpoint⟩⟩⟩
        cases hu
        rfl

/-! ## Who holds the lock -/

/-- The call of the lock or the condition that goes with a place, and whether
the lock is held there. -/
inductive Fits (who : Fin 5) : PhPoint → CallPoint → Bool → Prop where
  | thinking : Fits who .thinking .outside false
  | eating : Fits who .eating .outside false
  | asking {call} : Fits who (.inAcquire call) (.inP none) false
  | acquired {call} : Fits who (.inAcquire call) .outside true
  | held {p} (hp : p.Held) : Fits who p .outside true
  | asleep : Fits who .inWait (.inWait who) false
  | awake : Fits who .inWait (.inP (some who)) false
  | woken : Fits who .inWait .outside true
  | released {call} : Fits who (.inRelease call) .outside false

namespace Fits

variable {who : Fin 5} {p : PhPoint} {c : CallPoint} {b : Bool}

theorem of_held (h : Fits who p c b) (hp : p.Held) : c = .outside ∧ b = true := by
  cases h with
  | held => exact ⟨rfl, rfl⟩
  | thinking | eating | asking | acquired | asleep | awake | woken | released => cases hp

/-- Right behind the `Acquire` or the `Wait`. -/
theorem holding (h : Fits who p .outside b) (hp : p = .inWait ∨ ∃ call, p = .inAcquire call) :
    b = true := by
  cases h with
  | held | acquired | woken => rfl
  | thinking | eating | released => simp at hp

/-- Between the calls, and behind the `Release`. -/
theorem released_of (h : Fits who p c b)
    (hp : p = .thinking ∨ p = .eating ∨ ∃ call, p = .inRelease call) :
    c = .outside ∧ b = false := by
  cases h with
  | thinking | eating | released => exact ⟨rfl, rfl⟩
  | held hheld => rcases hp with rfl | rfl | ⟨call, rfl⟩ <;> cases hheld
  | asking | acquired | asleep | awake | woken => simp at hp

theorem point_of_asleep {d : Nat} (h : Fits who p (.inWait d) b) : p = .inWait := by
  cases h
  rfl

/-- In a `Wait` without the lock. -/
theorem insideWait {m : Monitor} {t : Tid} (h : Fits who .inWait (m.callPoint t) false) :
    m.InsideWait t who := by
  generalize hcall : m.callPoint t = c at h
  cases h with
  | asleep => exact .inl hcall
  | awake => exact .inr hcall

theorem condition_of_asleep {d : Nat} (h : Fits who p (.inWait d) b) : d = who := by
  cases h
  rfl

/-- At the test of `P`: without the lock, and the test either comes again or
lets the thread through. -/
structure AtTest (who : Fin 5) (p : PhPoint) (wait : Option Nat) (b : Bool) : Prop where
  holding : b = false
  again : Fits who p (.inP wait) false
  through : Fits who p .outside true

theorem resume (h : Fits who p c b) {wait : Option Nat}
    (hwait : c = .inP wait ∨ ∃ d, wait = some d ∧ c = .inWait d) : AtTest who p wait b := by
  cases h with
  | asking =>
      obtain rfl : none = wait := by simpa using hwait
      exact ⟨rfl, .asking, .acquired⟩
  | asleep =>
      obtain rfl : wait = some who.val := by simpa using hwait
      exact ⟨rfl, .awake, .woken⟩
  | awake =>
      obtain rfl : some who.val = wait := by simpa using hwait
      exact ⟨rfl, .awake, .woken⟩
  | thinking | eating | acquired | held | woken | released => simp at hwait

end Fits

/-- Every philosopher is in the call that his place tells, and no other
thread is in one. -/
structure Fitting (s : DiningPh) : Prop where
  philosopher : ∀ who,
    Fits who (s.point who) (s.monitor.callPoint (thread who)) (s.monitor.holding (thread who))
  elsewhere : ∀ t, (∀ who, t ≠ thread who) → s.monitor.callPoint t = .outside

namespace Fitting

variable {s s' : DiningPh} {who : Fin 5}

theorem start : DiningPh.start.Fitting :=
  ⟨fun _ => .thinking, fun _ _ => rfl⟩

/-- Only one philosopher has moved, or his call. -/
theorem update (h : s.Fitting)
    (hself : Fits who (s'.point who) (s'.monitor.callPoint (thread who))
      (s'.monitor.holding (thread who)))
    (hpoint : ∀ other, other ≠ who → s'.point other = s.point other)
    (hmoves : s.monitor.Moves (thread who) s'.monitor) : s'.Fitting := by
  refine ⟨fun other => ?_, fun t ht => ?_⟩
  · by_cases hother : other = who
    · subst hother
      exact hself
    · have hne : thread other ≠ thread who := by simpa using hother
      rw [hpoint other hother, hmoves.callPoint _ hne, hmoves.holding _ hne]
      exact h.philosopher other
  · rw [hmoves.callPoint t (ht who)]
    exact h.elsewhere t ht

/-- A statement, while the thread has the CPU. -/
theorem assign (h : s.Fitting) {p : PhPoint}
    (hself : Fits who p (s.monitor.callPoint (thread who)) (s.monitor.holding (thread who)))
    (i : Fin 5) (st : PhState) : ((s.setState i st).moveTo who p).Fitting :=
  h.update (by simpa using hself) (fun _ hother => moveTo_point_of_ne _ _ _ hother) (.refl _ _)

theorem moveTo (h : s.Fitting) {p : PhPoint}
    (hself : Fits who p (s.monitor.callPoint (thread who)) (s.monitor.holding (thread who))) :
    (s.moveTo who p).Fitting :=
  h.update (by simpa using hself) (fun _ hother => moveTo_point_of_ne _ _ _ hother) (.refl _ _)

/-- The test of `P`, in an `Acquire` or in that of a `Wait`. -/
theorem acquire (h : s.Fitting) {p : PhPoint} {wait : Option Nat}
    (hasleep : Fits who p (.inP wait) false) (hthrough : Fits who p .outside true)
    (hholding : s.monitor.holding (thread who) = false) :
    Fitting { s.moveTo who p with monitor := s.monitor.Acquire (thread who) wait } := by
  refine h.update ?_ (fun _ hother => moveTo_point_of_ne s who p hother)
    (s.monitor.Acquire_moves (thread who) wait)
  by_cases hzero : s.monitor.semaphore.value = 0
  · rw [Monitor.Acquire_asleep hzero]
    simpa [hholding] using hasleep
  · rw [Monitor.Acquire_through hzero]
    simpa using hthrough

theorem signal (h : s.Fitting) (howner : s.monitor.owner = some (thread who)) {p : PhPoint}
    (hself : Fits who p (s.monitor.callPoint (thread who)) (s.monitor.holding (thread who)))
    (c : Nat) :
    Fitting { s.moveTo who p with monitor := s.monitor.Signal (thread who) c } := by
  rw [Monitor.Signal, if_pos howner]
  exact h.update (by simpa using hself) (fun _ hother => moveTo_point_of_ne s who p hother)
    ⟨fun _ _ => rfl, fun _ _ => rfl⟩

theorem wait (h : s.Fitting) (howner : s.monitor.owner = some (thread who)) :
    Fitting { s.moveTo who .inWait with monitor := s.monitor.Wait (thread who) who } := by
  refine h.update ?_ (fun _ hother => moveTo_point_of_ne s who _ hother)
    (Monitor.Wait_moves howner who)
  rw [Monitor.Wait, if_pos howner, Monitor.Release, if_pos howner]
  simpa [Monitor.enqueue, Monitor.V] using Fits.asleep

theorem release (h : s.Fitting) (hcall : s.monitor.callPoint (thread who) = .outside)
    (howner : s.monitor.owner = some (thread who)) (call : PhCall) :
    Fitting { s.moveTo who (.inRelease call) with
      monitor := s.monitor.Release (thread who) } := by
  refine h.update ?_ (fun _ hother => moveTo_point_of_ne s who _ hother)
    (Monitor.Release_moves howner)
  rw [Monitor.Release, if_pos howner]
  simpa [Monitor.V, hcall] using Fits.released

/-- Whoever is at such a place has the lock. -/
theorem holding (h : s.Fitting) (hp : (s.point who).Held) :
    s.monitor.holding (thread who) = true :=
  ((h.philosopher who).of_held hp).2

/-- So has a philosopher behind his `Acquire` or his `Wait`. -/
theorem holding_of_runs (h : s.Fitting) (hruns : s.monitor.Runs (thread who))
    (hp : s.point who = .inWait ∨ ∃ call, s.point who = .inAcquire call) :
    s.monitor.holding (thread who) = true :=
  (hruns.2 ▸ h.philosopher who : Fits who _ .outside _).holding hp

theorem step (h : s.Fitting) (hm : s.monitor.Sound) {e : Event} (hdoes : s.Does e s') :
    s'.Fitting := by
  have howner : ∀ {t}, s.monitor.holding t = true → s.monitor.owner = some t := fun ht =>
    (hm.locked.owner _).mpr ht
  cases hdoes with
  | idle _ hholding hcall =>
      refine ⟨fun who => ?_, fun t ht => ?_⟩
      · rw [hcall, hholding]
        exact h.philosopher who
      · rw [hcall]
        exact h.elsewhere t ht
  | @resume t wait _ hwait =>
      by_cases ht : ∃ who, t = thread who
      case pos =>
        obtain ⟨who, rfl⟩ := ht
        have htest := (h.philosopher who).resume hwait
        have hself := h.acquire htest.again htest.through htest.holding
        rwa [moveTo_self] at hself
      case neg =>
        have hcall := h.elsewhere t (by simpa using ht)
        simp [hcall] at hwait
  | @acquire who call hruns hpoint =>
      refine h.acquire .asking .acquired ((h.philosopher who).released_of ?_).2
      cases call
      · exact .inl hpoint
      · exact .inr (.inl hpoint)
  | @hungry who hruns hpoint | @full who hruns hpoint =>
      refine h.assign ?_ _ _
      rw [hruns.2, h.holding_of_runs hruns (.inr ⟨_, hpoint⟩)]
      exact .held trivial
  | @passes who seat hruns hpoint =>
      refine h.moveTo ?_
      rw [hruns.2, h.holding (by simp [hpoint, PhPoint.Held])]
      exact .held trivial
  | @fails who seat hruns hpoint =>
      refine h.moveTo ?_
      rw [hruns.2, h.holding (by simp [hpoint, PhPoint.Held])]
      exact .held (by cases seat <;> trivial)
  | @eat who seat hruns hpoint =>
      refine h.assign ?_ _ _
      rw [hruns.2, h.holding (by simp [hpoint, PhPoint.Held])]
      exact .held trivial
  | @signal who seat hruns hpoint =>
      have hholding : s.monitor.holding (thread who) = true :=
        h.holding (by simp [hpoint, PhPoint.Held])
      refine h.signal (howner hholding) ?_ _
      rw [hruns.2, hholding]
      exact .held (by cases seat <;> trivial)
  | @wait who hruns hpoint =>
      exact h.wait (howner (h.holding (by simp [hpoint, PhPoint.Held])))
  | @skip who hruns hpoint =>
      refine h.moveTo ?_
      rw [hruns.2, h.holding (by simp [hpoint, PhPoint.Held])]
      exact .held trivial
  | @release who call hruns hpoint =>
      refine h.release hruns.2 (howner ?_) call
      rcases hpoint with hpoint | ⟨hpoint, -⟩
      · exact h.holding (by simp [hpoint, PhPoint.Held])
      · exact h.holding_of_runs hruns (.inl hpoint)
  | @leave who call hruns hpoint =>
      refine h.moveTo ?_
      obtain ⟨hcall, hholding⟩ := (h.philosopher who).released_of (.inr (.inr ⟨call, hpoint⟩))
      rw [hcall, hholding]
      cases call
      · exact .eating
      · exact .thinking

/-- While one philosopher has the lock, nobody else is at a place of the
holder. -/
theorem alone (h : s.Fitting) (hm : s.monitor.Sound)
    (hholding : s.monitor.holding (thread who) = true) {other : Fin 5} (hne : other ≠ who) :
    ¬(s.point other).Held := by
  intro hheld
  have hsame := hm.correct.exclusive _ _ (h.holding hheld) hholding
  exact hne (thread_injective hsame)

end Fitting

end DiningPh

end DistributedAscii.NachOS
