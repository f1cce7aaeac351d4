import DistributedAscii.Lib.Linear
import DistributedAscii.NachOS.Clients
import Mathlib.Data.Finset.Card

/-!
# NachOS — SynchList

`SynchList` of `threads/synchlist.h`: a list, a lock, and a condition (number
0) for those who find the list empty. `Append` signals one of them, which is
enough: those who were signalled and have not looked again are at least as
many as the items that lie there (`Served`). So `Append` and `Remove` are those
of a queue in which one call comes behind the other, and at rest nobody sleeps
while there is something for him (`Synchronized`).

Added to the program: the `log` of what has been put on the list and taken
from it, and the calls that have `returned`.
-/

namespace DistributedAscii.NachOS

open Lib Lib.Runs

variable {β : Type*}

/-- What `Append` has put on the list, and what `Remove` has taken from it. -/
inductive ListOp (β : Type*) where
  | append (item : β)
  | remove (item : Option β)
deriving DecidableEq

/-- Where a thread is in `Append` or `Remove`: behind a call or a statement. -/
inductive ListPoint (β : Type*) where
  | outside
  | appending (item : β)
  | appended (item : β)
  | signalled (item : β)
  | removing
  | inWait
  | found
  | removed (item : Option β)
  | inRelease (op : ListOp β)

/-- What the thread has done to the list, before the return. -/
def ListPoint.unreturned : ListPoint β → List (ListOp β)
  | .appended item | .signalled item => [.append item]
  | .removed item => [.remove item]
  | .inRelease op => [op]
  | .outside | .appending _ | .removing | .inWait | .found => []

structure SynchList (β : Type*) where
  monitor : Monitor
  list : List β
  point : Tid → ListPoint β
  log : List (Tid × ListOp β)
  returned : List (Tid × ListOp β)

namespace SynchList

/-- The first five are the scheduler's and the lock's; then the statements of
`Append` and of `Remove`, in their order, and what is at the end of both. -/
inductive Event (β : Type*) where
  | dispatch
  | ready (t : Tid)
  | yield (t : Tid)
  | sleep (t : Tid)
  | resume (t : Tid)
  | append (t : Tid) (item : β)
  | put (t : Tid)
  | signal (t : Tid)
  | remove (t : Tid)
  | test (t : Tid)
  | take (t : Tid)
  | release (t : Tid)
  | leave (t : Tid)

/-- `SynchList::SynchList`. -/
def new : SynchList β where
  monitor := .start
  list := []
  point _ := .outside
  log := []
  returned := []

def moveTo (s : SynchList β) (t : Tid) (p : ListPoint β) : SynchList β :=
  { s with point := Function.update s.point t p }

/-- An event of the lock or the scheduler, if it is possible. -/
def perform (s : SynchList β) (e : Monitor.Event) : Option (SynchList β) :=
  (s.monitor.step e).map fun monitor => { s with monitor }

/-- `list->Append(item)`. -/
def put (s : SynchList β) (t : Tid) (item : β) : SynchList β :=
  { s.moveTo t (.appended item) with
    list := s.list ++ [item]
    log := s.log ++ [(t, .append item)] }

/-- `item = list->Remove()`, which gives `NULL` if there is nothing. -/
def take (s : SynchList β) (t : Tid) : SynchList β :=
  { s.moveTo t (.removed s.list.head?) with
    list := s.list.tail
    log := s.log ++ [(t, .remove s.list.head?)] }

/-- `while (list->IsEmpty()) listEmpty->Wait(lock)`, from a test on. -/
def look (s : SynchList β) (t : Tid) : Option (SynchList β) :=
  match s.list with
  | [] => (s.moveTo t .inWait).perform (.wait t 0)
  | _ :: _ => some (s.moveTo t .found)

/-- `lock->Release()` at the end of both. -/
def unlock (s : SynchList β) (t : Tid) (op : ListOp β) : Option (SynchList β) :=
  (s.moveTo t (.inRelease op)).perform (.release t)

/-- One statement of a thread. Threads that sleep or wake up elsewhere are not
in a call. -/
def step (s : SynchList β) : Event β → Option (SynchList β)
  | .dispatch => s.perform .dispatch
  | .ready t =>
      match s.point t with
      | .outside => s.perform (.ready t)
      | _ => none
  | .yield t => s.perform (.yield t)
  | .sleep t =>
      match s.point t with
      | .outside => s.perform (.sleep t)
      | _ => none
  | .resume t => s.perform (.resume t)
  | .append t item =>
      match s.point t with
      | .outside => (s.moveTo t (.appending item)).perform (.acquire t)
      | _ => none
  | .put t =>
      match s.point t with
      | .appending item => if s.monitor.Runs t then some (s.put t item) else none
      | _ => none
  | .signal t =>
      match s.point t with
      | .appended item => (s.moveTo t (.signalled item)).perform (.signal t 0)
      | _ => none
  | .remove t =>
      match s.point t with
      | .outside => (s.moveTo t .removing).perform (.acquire t)
      | _ => none
  | .test t =>
      match s.point t with
      | .removing | .inWait => if s.monitor.Runs t then s.look t else none
      | _ => none
  | .take t =>
      match s.point t with
      | .found => if s.monitor.Runs t then some (s.take t) else none
      | _ => none
  | .release t =>
      match s.point t with
      | .signalled item => s.unlock t (.append item)
      | .removed item => s.unlock t (.remove item)
      | _ => none
  | .leave t =>
      match s.point t with
      | .inRelease op =>
          if s.monitor.Runs t then
            some { s.moveTo t .outside with returned := s.returned ++ [(t, op)] }
          else none
      | _ => none

/-! ## What an event does -/

/-- What an event does, case by case. -/
inductive Does (s : SynchList β) : Event β → SynchList β → Prop where
  | background {e e' monitor}
      (hbackground : Monitor.Background (fun t => ¬s.point t ≠ .outside) e')
      (hstep : s.monitor.step e' = some monitor) : Does s e { s with monitor }
  | append {t item monitor} (hpoint : s.point t = .outside)
      (hstep : s.monitor.step (.acquire t) = some monitor) :
      Does s (.append t item) { s.moveTo t (.appending item) with monitor }
  | put {t item} (hruns : s.monitor.Runs t) (hpoint : s.point t = .appending item) :
      Does s (.put t) (s.put t item)
  | signal {t item monitor} (hpoint : s.point t = .appended item)
      (hstep : s.monitor.step (.signal t 0) = some monitor) :
      Does s (.signal t) { s.moveTo t (.signalled item) with monitor }
  | remove {t monitor} (hpoint : s.point t = .outside)
      (hstep : s.monitor.step (.acquire t) = some monitor) :
      Does s (.remove t) { s.moveTo t .removing with monitor }
  | wait {t monitor} (hpoint : s.point t = .removing ∨ s.point t = .inWait) (hlist : s.list = [])
      (hstep : s.monitor.step (.wait t 0) = some monitor) :
      Does s (.test t) { s.moveTo t .inWait with monitor }
  | found {t} (hruns : s.monitor.Runs t) (hpoint : s.point t = .removing ∨ s.point t = .inWait)
      (hlist : s.list ≠ []) : Does s (.test t) (s.moveTo t .found)
  | take {t} (hruns : s.monitor.Runs t) (hpoint : s.point t = .found) :
      Does s (.take t) (s.take t)
  | release {t op monitor}
      (hpoint : (∃ item, s.point t = .signalled item ∧ op = .append item) ∨
        ∃ item, s.point t = .removed item ∧ op = .remove item)
      (hstep : s.monitor.step (.release t) = some monitor) :
      Does s (.release t) { s.moveTo t (.inRelease op) with monitor }
  | leave {t op} (hruns : s.monitor.Runs t) (hpoint : s.point t = .inRelease op) :
      Does s (.leave t) { s.moveTo t .outside with returned := s.returned ++ [(t, op)] }

section Does

variable {s s' : SynchList β} {e : Event β} {t : Tid}

theorem perform_eq_some {e : Monitor.Event} (h : s.perform e = some s') :
    ∃ monitor, s.monitor.step e = some monitor ∧ s' = { s with monitor } := by
  obtain ⟨monitor, hstep, rfl⟩ := Option.map_eq_some_iff.mp h
  exact ⟨monitor, hstep, rfl⟩

theorem does_of_background {e' : Monitor.Event}
    (hbackground : Monitor.Background (fun t => ¬s.point t ≠ .outside) e')
    (h : s.perform e' = some s') : Does s e s' := by
  obtain ⟨monitor, hstep, rfl⟩ := perform_eq_some h
  exact .background hbackground hstep

theorem does_of_look (hruns : s.monitor.Runs t)
    (hpoint : s.point t = .removing ∨ s.point t = .inWait) (h : s.look t = some s') :
    Does s (.test t) s' := by
  unfold look at h
  split at h
  · obtain ⟨monitor, hstep, rfl⟩ := perform_eq_some h
    exact .wait hpoint ‹_› hstep
  · cases h
    exact .found hruns hpoint (by simp [*])

theorem does_of_step (h : s.step e = some s') : Does s e s' := by
  cases e with
  | dispatch => exact does_of_background .dispatch h
  | ready t =>
      simp only [step] at h
      split at h
      · exact does_of_background (.ready (not_not.mpr ‹_›)) h
      · cases h
  | yield t => exact does_of_background .yield h
  | sleep t =>
      simp only [step] at h
      split at h
      · exact does_of_background (.sleep (not_not.mpr ‹_›)) h
      · cases h
  | resume t => exact does_of_background .resume h
  | append t item =>
      simp only [step] at h
      split at h
      · obtain ⟨monitor, hstep, rfl⟩ := perform_eq_some h
        exact .append ‹_› hstep
      · cases h
  | put t =>
      simp only [step] at h
      split at h
      · obtain ⟨hruns, h⟩ := Option.ite_none_right_eq_some.mp h
        cases h
        exact .put hruns ‹_›
      · cases h
  | signal t =>
      simp only [step] at h
      split at h
      · obtain ⟨monitor, hstep, rfl⟩ := perform_eq_some h
        exact .signal ‹_› hstep
      · cases h
  | remove t =>
      simp only [step] at h
      split at h
      · obtain ⟨monitor, hstep, rfl⟩ := perform_eq_some h
        exact .remove ‹_› hstep
      · cases h
  | test t =>
      simp only [step] at h
      split at h
      · obtain ⟨hruns, h⟩ := Option.ite_none_right_eq_some.mp h
        exact does_of_look hruns (.inl ‹_›) h
      · obtain ⟨hruns, h⟩ := Option.ite_none_right_eq_some.mp h
        exact does_of_look hruns (.inr ‹_›) h
      · cases h
  | take t =>
      simp only [step] at h
      split at h
      · obtain ⟨hruns, h⟩ := Option.ite_none_right_eq_some.mp h
        cases h
        exact .take hruns ‹_›
      · cases h
  | release t =>
      simp only [step] at h
      split at h
      · obtain ⟨monitor, hstep, rfl⟩ := perform_eq_some h
        exact .release (.inl ⟨_, ‹_›, rfl⟩) hstep
      · obtain ⟨monitor, hstep, rfl⟩ := perform_eq_some h
        exact .release (.inr ⟨_, ‹_›, rfl⟩) hstep
      · cases h
  | leave t =>
      simp only [step] at h
      split at h
      · obtain ⟨hruns, h⟩ := Option.ite_none_right_eq_some.mp h
        cases h
        exact .leave hruns ‹_›
      · cases h

end Does

/-! ## Where the threads are -/

end SynchList

/-- Between the `Acquire` and the `Release`. -/
def ListPoint.Inside : ListPoint β → Prop
  | .outside | .inRelease _ => False
  | .appending _ | .appended _ | .signalled _ | .removing | .inWait | .found | .removed _ => True

namespace SynchList

/-- The operation of the monitor that goes with a place, and whether the lock
is held there. -/
inductive Fits : ListPoint β → CallPoint → Bool → Prop where
  | outside : Fits .outside .outside false
  | appending {item} : Fits (.appending item) (.inP none) false
  | removing : Fits .removing (.inP none) false
  | asleep : Fits .inWait (.inWait 0) false
  | woken : Fits .inWait (.inP (some 0)) false
  | inside {p} (hp : p.Inside) : Fits p .outside true
  | inRelease {op} : Fits (.inRelease op) .outside false

namespace Fits

variable {p : ListPoint β} {c : CallPoint} {b : Bool} {op : ListOp β}

theorem of_outside (h : Fits (.outside : ListPoint β) c b) : c = .outside ∧ b = false := by
  cases h with
  | outside => exact ⟨rfl, rfl⟩
  | inside hp => exact hp.elim

theorem of_inRelease (h : Fits (.inRelease op) c b) : c = .outside ∧ b = false := by
  cases h with
  | inRelease => exact ⟨rfl, rfl⟩
  | inside hp => exact hp.elim

/-- Inside, and in no operation. -/
theorem holding (h : Fits p .outside b) (hp : p.Inside) : b = true := by
  cases h with
  | outside | inRelease => exact hp.elim
  | inside => rfl

theorem of_holding (h : Fits p c true) : p.Inside ∧ c = .outside := by
  cases h with
  | inside hp => exact ⟨hp, rfl⟩

theorem of_inWait {d : Nat} (h : Fits p (.inWait d) b) : p = .inWait ∧ d = 0 := by
  cases h with
  | asleep => exact ⟨rfl, rfl⟩

/-- Behind `list->Append`, and behind the loop of `Remove`. -/
theorem outside_of_busy (h : Fits p c b) (hp : (∃ item, p = .appended item) ∨ p = .found) :
    c = .outside ∧ b = true := by
  cases h with
  | inside => exact ⟨rfl, rfl⟩
  | outside | appending | removing | asleep | woken | inRelease => simp at hp

theorem resumable : Monitor.Resumable (Fits : ListPoint β → CallPoint → Bool → Prop) := by
  intro p c b wait h hwait
  cases h with
  | appending =>
      obtain rfl : none = wait := by simpa using hwait
      exact ⟨rfl, .appending, .inside trivial⟩
  | removing =>
      obtain rfl : none = wait := by simpa using hwait
      exact ⟨rfl, .removing, .inside trivial⟩
  | woken =>
      obtain rfl : some 0 = wait := by simpa using hwait
      exact ⟨rfl, .woken, .inside trivial⟩
  | asleep =>
      obtain rfl : wait = some 0 := by simpa using hwait
      exact ⟨rfl, .woken, .inside trivial⟩
  | outside | inside | inRelease => simp at hwait

end Fits

/-- Every thread is in the operation that its place tells. -/
def Fitting (s : SynchList β) : Prop :=
  Monitor.Fitting Fits s.point s.monitor

section Fitting

variable {s s' : SynchList β} {t u : Tid} {e : Event β}

/-- Who runs inside holds the lock. -/
theorem Fitting.holding (h : s.Fitting) (hruns : s.monitor.Runs t) (hp : (s.point t).Inside) :
    s.monitor.holding t = true :=
  (hruns.2 ▸ h t : Fits (s.point t) .outside _).holding hp

/-- A statement of a thread inside. -/
theorem Fitting.moveTo (h : s.Fitting) (hruns : s.monitor.Runs t) (hp : (s.point t).Inside)
    {p : ListPoint β} (hp' : p.Inside) : (s.moveTo t p).Fitting := by
  have hself : Fits p (s.monitor.callPoint t) (s.monitor.holding t) := by
    rw [hruns.2, h.holding hruns hp]
    exact .inside hp'
  exact Monitor.Fitting.moveTo h hself

theorem Fitting.step (h : s.Fitting) (hm : s.monitor.Sound) (hdoes : Does s e s') :
    s'.Fitting := by
  have howner : ∀ {t}, s.monitor.holding t = true → s.monitor.owner = some t := fun ht =>
    (hm.locked.owner _).mpr ht
  cases hdoes with
  | background hbackground hstep =>
      exact Monitor.Fitting.background h Fits.resumable hbackground (Monitor.does_of_step hstep).2
  | @append t item monitor hpoint hstep =>
      obtain ⟨-, hdoes⟩ := Monitor.does_of_step hstep
      cases hdoes
      exact Monitor.Fitting.acquire h (hpoint ▸ h t : Fits .outside _ _).of_outside.2 .appending
        (.inside trivial)
  | @remove t monitor hpoint hstep =>
      obtain ⟨-, hdoes⟩ := Monitor.does_of_step hstep
      cases hdoes
      exact Monitor.Fitting.acquire h (hpoint ▸ h t : Fits .outside _ _).of_outside.2 .removing
        (.inside trivial)
  | put hruns hpoint => exact h.moveTo hruns (hpoint ▸ trivial) trivial
  | take hruns hpoint => exact h.moveTo hruns (hpoint ▸ trivial) trivial
  | @found t hruns hpoint =>
      refine h.moveTo hruns ?_ trivial
      rcases hpoint with hpoint | hpoint
      · exact hpoint ▸ trivial
      · exact hpoint ▸ trivial
  | @signal t item monitor hpoint hstep =>
      obtain ⟨-, hdoes⟩ := Monitor.does_of_step hstep
      cases hdoes with
      | signal hruns hholding =>
          -- the signaller moves on, the monitor stays in its hands
          have hmoved := h.moveTo hruns (hpoint ▸ trivial) (p := .signalled item) trivial
          refine Monitor.Fitting.idle hmoved (Monitor.callPoint_Signal ..) ?_
          rw [Monitor.Signal, if_pos (howner hholding)]
          rfl
  | wait hpoint hlist hstep =>
      obtain ⟨-, hdoes⟩ := Monitor.does_of_step hstep
      cases hdoes with
      | wait hruns hholding => exact Monitor.Fitting.wait h (howner hholding) .asleep
  | @release t op monitor hpoint hstep =>
      obtain ⟨-, hdoes⟩ := Monitor.does_of_step hstep
      cases hdoes with
      | release hruns =>
          have hholding : s.monitor.holding t = true := by
            refine h.holding hruns ?_
            obtain ⟨item, hpoint, -⟩ | ⟨item, hpoint, -⟩ := hpoint
            · exact hpoint ▸ trivial
            · exact hpoint ▸ trivial
          exact Monitor.Fitting.release h (howner hholding) hruns.2 .inRelease
  | @leave t op hruns hpoint =>
      obtain ⟨hcall, hholding⟩ := (hpoint ▸ h t : Fits (.inRelease op) _ _).of_inRelease
      have hself : Fits (.outside : ListPoint β) (s.monitor.callPoint t) (s.monitor.holding t) := by
        rw [hcall, hholding]
        exact .outside
      exact Monitor.Fitting.moveTo h hself

end Fitting

/-! ## Who is awake -/

/-- Who is in a call and in no operation of the monitor is awake. -/
def Attentive (s : SynchList β) : Prop :=
  Monitor.Attentive (fun p => p ≠ .outside) s.point s.monitor []

section Attentive

variable {s s' : SynchList β} {e : Event β}

theorem Attentive.step (h : s.Attentive) (hm : s.monitor.Sound) (hdoes : Does s e s') :
    s'.Attentive := by
  have hawake : ∀ {t}, s.monitor.Runs t → s.monitor.Awake t := fun hruns =>
    .inr (hm.scheduled.status_of_current hruns.1)
  cases hdoes with
  | background hbackground hstep =>
      exact Monitor.Attentive.background h hm hbackground (Monitor.does_of_step hstep).2
  | append hpoint hstep | remove hpoint hstep =>
      obtain ⟨-, hdoes⟩ := Monitor.does_of_step hstep
      cases hdoes with
      | acquire hruns => exact Monitor.Attentive.call h hm (.acquire hruns) hruns (by simp)
  | put hruns | take hruns | found hruns | leave hruns =>
      exact Monitor.Attentive.moveTo h (hawake hruns)
  | signal hpoint hstep =>
      obtain ⟨-, hdoes⟩ := Monitor.does_of_step hstep
      cases hdoes with
      | signal hruns hholding =>
          exact Monitor.Attentive.call h hm (.signal hruns hholding) hruns (by simp)
  | wait hpoint hlist hstep =>
      obtain ⟨-, hdoes⟩ := Monitor.does_of_step hstep
      cases hdoes with
      | wait hruns hholding =>
          exact Monitor.Attentive.call h hm (.wait hruns hholding) hruns (by simp)
  | release hpoint hstep =>
      obtain ⟨-, hdoes⟩ := Monitor.does_of_step hstep
      cases hdoes with
      | release hruns => exact Monitor.Attentive.call h hm (.release hruns) hruns (by simp)

end Attentive

/-! ## The items, and those who wait for them -/

/-- Has put an item and not signalled yet, or found one and not taken it. -/
def Busy (p : ListPoint β) : Prop :=
  (∃ item, p = .appended item) ∨ p = .found

/-- **No wakeup is lost**: while somebody sleeps in `Remove`, those who have
been woken and have not looked yet are as many as the items, but for one that
the thread inside is busy with. -/
def Served (s : SynchList β) : Prop :=
  s.monitor.conditions 0 = [] ∨
    ∃ woken : Finset Tid, (∀ t ∈ woken, s.point t = .inWait ∧ t ∉ s.monitor.conditions 0) ∧
      (s.list.length ≤ woken.card ∨
        (∃ t, Busy (s.point t)) ∧ s.list.length ≤ woken.card + 1)

/-- Who has found an item will find it. -/
def Stocked (s : SynchList β) : Prop :=
  ∀ t, s.point t = .found → s.list ≠ []

section Items

variable {s s' : SynchList β} {t u : Tid} {e : Event β}

@[simp] theorem moveTo_point_self (s : SynchList β) (t : Tid) (p : ListPoint β) :
    (s.moveTo t p).point t = p :=
  Function.update_self ..

theorem moveTo_point_of_ne (s : SynchList β) (p : ListPoint β) (hu : u ≠ t) :
    (s.moveTo t p).point u = s.point u :=
  Function.update_of_ne hu ..

/-- Only the holder of the lock is busy. -/
theorem Fitting.busy (h : s.Fitting) (hm : s.monitor.Sound) (hholding : s.monitor.holding t = true)
    (hbusy : Busy (s.point u)) : u = t :=
  hm.correct.exclusive u t ((h u).outside_of_busy hbusy).2 hholding

theorem Fitting.inWait_of_mem (h : s.Fitting) (hm : s.monitor.Sound)
    (hmem : u ∈ s.monitor.conditions 0) : s.point u = .inWait := by
  have hcall := (hm.scheduled.mem_condition_iff.mp hmem).1
  exact (hcall ▸ h u : Fits (s.point u) (.inWait 0) _).of_inWait.1

namespace Served

/-- Neither the items nor those who wait change. -/
theorem keep (h : s.Served) (hlist : s'.list = s.list)
    (hconditions : s'.monitor.conditions = s.monitor.conditions)
    (hpoint : ∀ u, s.point u = .inWait ∨ Busy (s.point u) → s'.point u = s.point u) :
    s'.Served := by
  unfold Served
  rw [hconditions, hlist]
  refine h.imp_right ?_
  rintro ⟨woken, hwoken, hlength⟩
  refine ⟨woken, fun t ht => ?_, hlength.imp_right fun ⟨⟨t, ht⟩, hle⟩ => ⟨⟨t, ?_⟩, hle⟩⟩
  · obtain ⟨hwait, hnot⟩ := hwoken t ht
    exact ⟨(hpoint t (.inl hwait)).trans hwait, hnot⟩
  · rwa [hpoint t (.inr ht)]

/-- The others stay, when a thread that neither waits nor is busy goes on. -/
theorem moves (p : ListPoint β) (hwait : s.point t ≠ .inWait) (hbusy : ¬Busy (s.point t)) (u : Tid)
    (hu : s.point u = .inWait ∨ Busy (s.point u)) : (s.moveTo t p).point u = s.point u := by
  refine moveTo_point_of_ne s p ?_
  rintro rfl
  exact hu.elim hwait hbusy

/-- With nobody busy, those who were woken are enough. -/
theorem enough (h : s.Served) (hbusy : ∀ t, ¬Busy (s.point t)) :
    s.monitor.conditions 0 = [] ∨
      ∃ woken : Finset Tid, (∀ t ∈ woken, s.point t = .inWait ∧ t ∉ s.monitor.conditions 0) ∧
        s.list.length ≤ woken.card := by
  refine h.imp_right ?_
  rintro ⟨woken, hwoken, hle | ⟨⟨t, ht⟩, -⟩⟩
  · exact ⟨woken, hwoken, hle⟩
  · exact absurd ht (hbusy t)

theorem put (h : s.Served) (hbusy : ∀ t, ¬Busy (s.point t)) (t : Tid)
    (hwait : s.point t ≠ .inWait) (item : β) : (s.put t item).Served := by
  refine (h.enough hbusy).imp_right ?_
  rintro ⟨woken, hwoken, hle⟩
  refine ⟨woken, fun u hu => ?_, .inr ⟨⟨t, .inl ⟨item, Function.update_self ..⟩⟩, ?_⟩⟩
  · have hut : u ≠ t := by
      rintro rfl
      exact hwait (hwoken u hu).1
    exact ⟨(moveTo_point_of_ne s _ hut).trans (hwoken u hu).1, (hwoken u hu).2⟩
  · simpa [SynchList.put] using hle

/-- One more is woken for the item that was put. -/
theorem signal (h : s.Served) (hfit : s.Fitting) (hm : s.monitor.Sound) {item : β}
    (hpoint : s.point t = .appended item) (howner : s.monitor.owner = some t) :
    Served { s.moveTo t (.signalled item) with monitor := s.monitor.Signal t 0 } := by
  have hnodup := hm.scheduled.placed.nodup (.condition 0)
  have hconditions := congrFun (Monitor.conditions_Signal howner 0) 0
  rw [Function.update_self] at hconditions
  cases hqueue : s.monitor.conditions 0 with
  | nil =>
      left
      rw [hconditions, hqueue]
      rfl
  | cons u rest =>
      obtain hnone | ⟨woken, hwoken, hle⟩ := h
      · rw [hqueue] at hnone
        cases hnone
      have hlength : s.list.length ≤ woken.card + 1 := by
        obtain hle | ⟨-, hle⟩ := hle
        · omega
        · exact hle
      rw [hqueue] at hwoken hconditions
      change (s.monitor.conditions 0).Nodup at hnodup
      rw [hqueue, List.nodup_cons] at hnodup
      have hwait := hfit.inWait_of_mem hm (hqueue ▸ List.mem_cons_self : u ∈ s.monitor.conditions 0)
      have hnew : u ∉ woken := fun hu => (hwoken u hu).2 List.mem_cons_self
      have hne : ∀ v, s.point v = .inWait → v ≠ t := by
        rintro v hv rfl
        cases hv.symm.trans hpoint
      right
      refine ⟨insert u woken, fun v hv => ?_, .inl ?_⟩
      · rw [hconditions]
        rcases Finset.mem_insert.mp hv with rfl | hv
        · exact ⟨(moveTo_point_of_ne s _ (hne v hwait)).trans hwait, hnodup.1⟩
        · obtain ⟨hwait, hnot⟩ := hwoken v hv
          refine ⟨(moveTo_point_of_ne s _ (hne v hwait)).trans hwait, fun hmem => ?_⟩
          exact hnot (List.mem_cons_of_mem u hmem)
      · rw [Finset.card_insert_of_notMem hnew]
        exact hlength

/-- Who finds nothing leaves nothing to be served. -/
theorem wait (hlist : s'.list = []) : s'.Served :=
  .inr ⟨∅, fun _ h => absurd h (Finset.notMem_empty _), .inl (by simp [hlist])⟩

/-- One of the woken looks, or another thread instead. -/
theorem found (h : s.Served) (hbusy : ∀ t, ¬Busy (s.point t)) (t : Tid) :
    (s.moveTo t .found).Served := by
  refine (h.enough hbusy).imp_right ?_
  rintro ⟨woken, hwoken, hle⟩
  refine ⟨woken.erase t, fun u hu => ?_, .inr ⟨⟨t, .inr (Function.update_self ..)⟩, ?_⟩⟩
  · obtain ⟨hut, hu⟩ := Finset.mem_erase.mp hu
    exact ⟨(moveTo_point_of_ne s _ hut).trans (hwoken u hu).1, (hwoken u hu).2⟩
  · have hcard : woken.card - 1 ≤ (woken.erase t).card := Finset.pred_card_le_card_erase
    change s.list.length ≤ _
    omega

theorem take (h : s.Served) (hpoint : s.point t = .found) : (s.take t).Served := by
  refine h.imp_right ?_
  rintro ⟨woken, hwoken, hle⟩
  refine ⟨woken, fun u hu => ?_, .inl ?_⟩
  · have hut : u ≠ t := by
      rintro rfl
      cases (hwoken u hu).1.symm.trans hpoint
    exact ⟨(moveTo_point_of_ne s _ hut).trans (hwoken u hu).1, (hwoken u hu).2⟩
  · have hlength : (s.take t).list.length = s.list.length - 1 := List.length_tail
    omega

theorem step (h : s.Served) (hfit : s.Fitting) (hm : s.monitor.Sound) (hdoes : Does s e s') :
    s'.Served := by
  have hholds : ∀ {t}, s.monitor.Runs t → (s.point t).Inside → s.monitor.holding t = true :=
    fun hruns hp => hfit.holding hruns hp
  have hbusy : ∀ {t}, s.monitor.Runs t → (s.point t).Inside → ¬Busy (s.point t) →
      ∀ u, ¬Busy (s.point u) := by
    intro t hruns hp ht u hu
    obtain rfl := hfit.busy hm (hholds hruns hp) hu
    exact ht hu
  cases hdoes with
  | background hbackground hstep =>
      have hconditions := hbackground.conditions (Monitor.does_of_step hstep).2
      exact h.keep rfl hconditions fun _ _ => rfl
  | append hpoint hstep | remove hpoint hstep =>
      obtain ⟨-, hdoes⟩ := Monitor.does_of_step hstep
      cases hdoes
      -- a thread that asks for the lock changes neither the list nor the queue
      refine h.keep rfl (Monitor.conditions_Acquire ..) (moves _ ?_ ?_)
      · simp [hpoint]
      · simp [hpoint, Busy]
  | put hruns hpoint =>
      refine h.put (hbusy hruns (hpoint ▸ trivial) ?_) _ ?_ _
      · simp [hpoint, Busy]
      · simp [hpoint]
  | signal hpoint hstep =>
      obtain ⟨-, hdoes⟩ := Monitor.does_of_step hstep
      cases hdoes with
      | signal hruns hholding =>
          exact h.signal hfit hm hpoint ((hm.locked.owner _).mpr hholding)
  | wait hpoint hlist hstep => exact wait hlist
  | found hruns hpoint hlist =>
      refine h.found (hbusy hruns ?_ ?_) _
      · rcases hpoint with hpoint | hpoint
        · exact hpoint ▸ trivial
        · exact hpoint ▸ trivial
      · rcases hpoint with hpoint | hpoint
        · simp [hpoint, Busy]
        · simp [hpoint, Busy]
  | take hruns hpoint => exact h.take hpoint
  | release hpoint hstep =>
      obtain ⟨-, hdoes⟩ := Monitor.does_of_step hstep
      cases hdoes
      refine h.keep rfl (Monitor.conditions_Release ..) (moves _ ?_ ?_)
      · obtain ⟨item, hpoint, -⟩ | ⟨item, hpoint, -⟩ := hpoint
        · simp [hpoint]
        · simp [hpoint]
      · obtain ⟨item, hpoint, -⟩ | ⟨item, hpoint, -⟩ := hpoint
        · simp [hpoint, Busy]
        · simp [hpoint, Busy]
  | leave hruns hpoint =>
      refine h.keep rfl rfl (moves _ ?_ ?_)
      · simp [hpoint]
      · simp [hpoint, Busy]

end Served

end Items

/-! ## The log -/

section Log

variable {s s' : SynchList β} {t : Tid} {e : Event β}

theorem Stocked.step (h : s.Stocked) (hfit : s.Fitting) (hm : s.monitor.Sound)
    (hdoes : Does s e s') : s'.Stocked := by
  have hmove : ∀ {t p}, p ≠ .found → ∀ u, (s.moveTo t p).point u = .found → s.list ≠ [] := by
    intro t p hp u hu
    by_cases hut : u = t
    · subst hut
      rw [moveTo_point_self] at hu
      exact absurd hu hp
    · rw [moveTo_point_of_ne s p hut] at hu
      exact h u hu
  cases hdoes with
  | background => exact h
  | append | signal | remove | wait | release | leave => exact hmove (by simp)
  | put => exact fun u _ => by simp [put]
  | @found t hruns hpoint hlist => exact fun u _ => hlist
  | @take t hruns hpoint =>
      intro u hu
      have hut : u ≠ t := by
        rintro rfl
        have hself : (s.take u).point u = .removed s.list.head? := Function.update_self ..
        cases hself.symm.trans hu
      have hholding := hfit.holding hruns (hpoint ▸ trivial)
      have hfound : s.point u = .found := (moveTo_point_of_ne s _ hut).symm.trans hu
      exact absurd (hfit.busy hm hholding (.inr hfound)) hut

/-- A queue: what is put comes to its end, and what is taken is its first. -/
inductive Queued : List β → ListOp β → List β → Prop where
  | append (list : List β) (item : β) : Queued list (.append item) (list ++ [item])
  | remove (item : β) (rest : List β) : Queued (item :: rest) (.remove (some item)) rest

/-- The list is where the log leads. -/
def Replayed (s : SynchList β) : Prop :=
  Linear.Replay Queued [] s.log s.list

theorem Replayed.step (h : s.Replayed) (hstocked : s.Stocked) (hdoes : Does s e s') :
    s'.Replayed := by
  cases hdoes with
  | background | append | signal | remove | wait | found | release | leave => exact h
  | put => exact Linear.Replay.snoc h (.append ..)
  | @take t hruns hpoint =>
      have hremove : Queued s.list (.remove s.list.head?) s.list.tail := by
        cases hlist : s.list with
        | nil => exact absurd hlist (hstocked t hpoint)
        | cons item rest => exact .remove item rest
      exact Linear.Replay.snoc h hremove

/-- Each thread has got what it took, but for the call it is in. -/
def Recorded (s : SynchList β) : Prop :=
  Linear.Recorded ListPoint.unreturned s.point s.log s.returned

theorem Recorded.step (h : s.Recorded) (hdoes : Does s e s') : s'.Recorded := by
  cases hdoes with
  | background => exact h
  | append hpoint | remove hpoint | signal hpoint =>
      exact Linear.Recorded.moveTo h (by rw [hpoint]; rfl)
  | wait hpoint | found hruns hpoint =>
      refine Linear.Recorded.moveTo h ?_
      rcases hpoint with hpoint | hpoint
      · simp [hpoint, ListPoint.unreturned]
      · simp [hpoint, ListPoint.unreturned]
  | put hruns hpoint | take hruns hpoint =>
      exact Linear.Recorded.effect h (by rw [hpoint]; rfl) rfl
  | release hpoint =>
      refine Linear.Recorded.moveTo h ?_
      obtain ⟨item, hpoint, rfl⟩ | ⟨item, hpoint, rfl⟩ := hpoint
      · simp [hpoint, ListPoint.unreturned]
      · simp [hpoint, ListPoint.unreturned]
  | leave hruns hpoint => exact Linear.Recorded.leave h (by rw [hpoint]; rfl) rfl

/-- The log only grows. -/
theorem log_step (hdoes : Does s e s') : s.log <+: s'.log := by
  cases hdoes with
  | background | append | signal | remove | wait | found | release | leave =>
      exact List.prefix_rfl
  | put | take => exact List.prefix_append ..

end Log

/-! ## All together -/

/-- The invariants together. -/
structure Sound (s : SynchList β) : Prop where
  monitor : s.monitor.Sound
  wakeful : s.monitor.Wakeful
  alive : s.monitor.failed = false
  fitting : s.Fitting
  attentive : s.Attentive
  served : s.Served
  stocked : s.Stocked
  recorded : s.Recorded
  replayed : s.Replayed

namespace Sound

variable {s s' : SynchList β} {e : Event β}

theorem new : (SynchList.new : SynchList β).Sound where
  monitor := .start
  wakeful := .start
  alive := rfl
  fitting _ := .outside
  attentive _ h := absurd rfl h
  served := .inl rfl
  stocked _ h := by cases h
  recorded _ := rfl
  replayed := .nil

/-- The monitor takes a step of its own or none, and no `Release` without the
lock. -/
theorem monitor_of_step (h : s.Sound) (hdoes : Does s e s') :
    s'.monitor = s.monitor ∨ ∃ e', s.monitor.step e' = some s'.monitor ∧
      ∀ t, e' = .release t → s.monitor.Runs t → s.monitor.holding t = true := by
  cases hdoes with
  | background hbackground hstep =>
      refine .inr ⟨_, hstep, fun t he => ?_⟩
      cases hbackground <;> cases he
  | append hpoint hstep | remove hpoint hstep | signal hpoint hstep => exact .inr ⟨_, hstep, nofun⟩
  | wait hpoint hlist hstep => exact .inr ⟨_, hstep, nofun⟩
  | release hpoint hstep =>
      refine .inr ⟨_, hstep, fun u he hruns => ?_⟩
      cases he
      refine h.fitting.holding hruns ?_
      obtain ⟨item, hpoint, -⟩ | ⟨item, hpoint, -⟩ := hpoint
      · exact hpoint ▸ trivial
      · exact hpoint ▸ trivial
  | put | take | found | leave => exact .inl rfl

theorem step (h : s.Sound) (hstep : s.step e = some s') : s'.Sound := by
  have hdoes := does_of_step hstep
  have hmonitor : s'.monitor.Sound ∧ s'.monitor.Wakeful ∧ s'.monitor.failed = false := by
    obtain hsame | ⟨e', hstep', hrelease⟩ := h.monitor_of_step hdoes
    · rw [hsame]
      exact ⟨h.monitor, h.wakeful, h.alive⟩
    · have hwakeful := h.wakeful.step h.monitor (Monitor.does_of_step hstep').2
      exact ⟨h.monitor.step hstep', hwakeful, h.monitor.alive_of_release hstep' hrelease⟩
  exact
    { monitor := hmonitor.1
      wakeful := hmonitor.2.1
      alive := hmonitor.2.2
      fitting := h.fitting.step h.monitor hdoes
      attentive := h.attentive.step h.monitor hdoes
      served := h.served.step h.fitting h.monitor hdoes
      stocked := h.stocked.step h.fitting h.monitor hdoes
      recorded := h.recorded.step hdoes
      replayed := h.replayed.step h.stocked hdoes }

/-- **At rest** all calls have returned but those of threads that sleep in
`Remove`, and these have nothing to take. -/
theorem rest (h : s.Sound) (hrest : s.monitor.AtRest) (t : Tid) (ht : s.point t ≠ .outside) :
    s.point t = .inWait ∧ t ∈ s.monitor.conditions 0 ∧ s.list = [] := by
  have hinside : ∀ t, s.point t ≠ .outside → s.point t = .inWait ∧ t ∈ s.monitor.conditions 0 := by
    intro t ht
    have hholder : ∀ u, s.monitor.holding u = true →
        s.point u ≠ .outside ∧ s.monitor.callPoint u = .outside := by
      intro u hu
      obtain ⟨hp, hcall⟩ := (hu ▸ h.fitting u : Fits (s.point u) _ true).of_holding
      refine ⟨fun hpoint => ?_, hcall⟩
      rw [hpoint] at hp
      exact hp.elim
    obtain ⟨c, hmem⟩ := hrest.inside h.monitor h.wakeful h.attentive hholder t ht
    have hcall := (h.monitor.scheduled.mem_condition_iff.mp hmem).1
    obtain ⟨hwait, rfl⟩ := (hcall ▸ h.fitting t : Fits (s.point t) (.inWait c) _).of_inWait
    exact ⟨hwait, hmem⟩
  obtain ⟨hwait, hmem⟩ := hinside t ht
  refine ⟨hwait, hmem, ?_⟩
  obtain hnone | ⟨woken, hwoken, hle⟩ := h.served
  · rw [hnone] at hmem
    cases hmem
  · -- nobody is on the way, and nobody is busy
    have hempty : woken = ∅ := by
      refine Finset.eq_empty_of_forall_notMem fun u hu => ?_
      obtain ⟨hwait, hnot⟩ := hwoken u hu
      exact hnot (hinside u (by simp [hwait])).2
    rcases hle with hle | ⟨⟨u, hu⟩, -⟩
    · simpa [hempty] using hle
    · have hout : s.point u ≠ .outside := by
        rintro hpoint
        simp [hpoint, Busy] at hu
      simp [(hinside u hout).1, Busy] at hu

end Sound

/-- A queue that is used by one thread at a time: no `ASSERT` fails; the list
is where the log leads, so that `Remove` never gives `NULL`; each thread gets
what the log has for it, in that order; and who is left at rest sleeps in
`Remove` with nothing on the list. -/
structure Synchronized (s : SynchList β) : Prop where
  alive : s.monitor.failed = false
  queue : Linear.Replay Queued [] s.log s.list
  answers : ∀ t, Linear.ofThread t s.log = Linear.ofThread t s.returned ++ (s.point t).unreturned
  rest : s.monitor.AtRest → ∀ t, s.point t ≠ .outside → s.point t = .inWait ∧ s.list = []

/-- **`Append` and `Remove` are atomic, and no wakeup is lost.** Whatever the
threads do, and in any order, the list is a queue that the calls reach one
behind the other, in an order in which a call that has returned stands in
front of the later ones. -/
theorem synchronized {events : List (Event β)} {s : SynchList β}
    (hrun : exec step new events = some s) :
    s.Synchronized ∧ ∀ front back, events = front ++ back → ∀ s₁,
      exec step new front = some s₁ → s₁.log <+: s.log := by
  have hsound : s.Sound := exec_induction (fun h hstep => Sound.step h hstep) .new hrun
  refine ⟨⟨hsound.alive, hsound.replayed, hsound.recorded, fun hrest t ht => ?_⟩, ?_⟩
  · obtain ⟨hwait, -, hlist⟩ := hsound.rest hrest t ht
    exact ⟨hwait, hlist⟩
  · rintro front back rfl s₁ hfront
    rw [exec_append, hfront] at hrun
    exact exec_induction (P := fun s => s₁.log <+: s.log)
      (fun h hstep => h.trans (log_step (does_of_step hstep))) List.prefix_rfl hrun

/-- Thread 0 finds nothing; thread 1 puts two items, and takes one itself
before thread 0 has looked again. -/
def overtaken : List (Event Nat) :=
  [.ready 1, .remove 0, .test 0, .dispatch, .append 1 7, .put 1, .signal 1, .release 1, .leave 1,
    .append 1 8, .put 1, .signal 1, .release 1, .leave 1, .remove 1, .test 1, .take 1, .release 1,
    .leave 1, .yield 1, .resume 0, .test 0, .take 0, .release 0, .leave 0]

theorem synchronized_overtaken :
    ∃ s : SynchList Nat, exec step new overtaken = some s ∧
      s.returned = [(1, .append 7), (1, .append 8), (1, .remove (some 7)), (0, .remove (some 8))] ∧
      s.Synchronized := by
  have hreturned : (exec step new overtaken).map SynchList.returned = some
      [(1, .append 7), (1, .append 8), (1, .remove (some 7)), (0, .remove (some 8))] := by
    decide +kernel
  obtain ⟨s, hrun, hreturned⟩ := Option.map_eq_some_iff.mp hreturned
  exact ⟨s, hrun, hreturned, (synchronized hrun).1⟩

end SynchList

end DistributedAscii.NachOS
