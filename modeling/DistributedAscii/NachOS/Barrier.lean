import DistributedAscii.NachOS.Mesa

/-!
# NachOS — Barrier

`Barrier` of `threads/synch.cc`: a lock, one condition (number 0) and a count
of the threads of the round. Each call of an operation of the lock or the
condition is an event of the monitor; the statements between them are events
of their own, since an interrupt can come before each of them.

Added to the program: `entered` and `returned`, the calls of `Wait` that have
counted themselves and those that have returned.
-/

namespace DistributedAscii.NachOS

open Lib.Runs

/-- Where a thread is in `Barrier::Wait`: not in it, in an operation of the
lock or the condition or right behind it, or behind an assignment. -/
inductive BarrierPoint where
  | outside
  | inAcquire
  | counted
  | inBroadcast
  | inWait
  | emptied
  | inRelease
deriving DecidableEq, Repr

/-- Behind the count and before the return. -/
def BarrierPoint.Inside : BarrierPoint → Prop
  | .outside | .inAcquire => False
  | _ => True

structure Barrier where
  monitor : Monitor
  maxCount : Int
  currentCount : Int
  point : Tid → BarrierPoint
  entered : Nat
  returned : Nat

namespace Barrier

/-- The first four are the monitor's, outside a call or in one, and `resume`
goes on in an operation of it. The others are the statements of `Wait`, in
their order: `test` with the call in its branch, and `leave` is the return. -/
inductive Event where
  | dispatch
  | ready (t : Tid)
  | yield (t : Tid)
  | sleep (t : Tid)
  | resume (t : Tid)
  | acquire (t : Tid)
  | count (t : Tid)
  | test (t : Tid)
  | reset (t : Tid)
  | release (t : Tid)
  | leave (t : Tid)
deriving DecidableEq, Repr

/-- `Barrier::Barrier`. -/
def start (count : Int32) : Barrier where
  monitor := .start
  maxCount := count.toInt
  currentCount := 0
  point _ := .outside
  entered := 0
  returned := 0

def moveTo (s : Barrier) (t : Tid) (p : BarrierPoint) : Barrier :=
  { s with point := Function.update s.point t p }

/-- An event of the monitor, if it is possible. -/
def perform (s : Barrier) (e : Monitor.Event) : Option Barrier :=
  (s.monitor.step e).map fun monitor => { s with monitor }

/-- `Barrier::Wait`, one statement at a time. Nobody falls asleep in it
outside the operations of the monitor. -/
def step (s : Barrier) : Event → Option Barrier
  | .dispatch => s.perform .dispatch
  | .ready t => s.perform (.ready t)
  | .yield t => s.perform (.yield t)
  | .sleep t => if s.point t = .outside then s.perform (.sleep t) else none
  | .resume t => s.perform (.resume t)
  | .acquire t =>
      if s.point t = .outside then (s.moveTo t .inAcquire).perform (.acquire t) else none
  | .count t =>
      if s.monitor.Runs t ∧ s.point t = .inAcquire then
        some { s.moveTo t .counted with
          currentCount := wrap32 (s.currentCount + 1)
          entered := s.entered + 1 }
      else none
  | .test t =>
      if s.point t = .counted then
        if s.currentCount = s.maxCount then
          (s.moveTo t .inBroadcast).perform (.broadcast t 0)
        else (s.moveTo t .inWait).perform (.wait t 0)
      else none
  | .reset t =>
      if s.monitor.Runs t ∧ s.point t = .inBroadcast then
        some { s.moveTo t .emptied with currentCount := 0 }
      else none
  | .release t =>
      if s.point t = .inWait ∨ s.point t = .emptied then
        (s.moveTo t .inRelease).perform (.release t)
      else none
  | .leave t =>
      if s.monitor.Runs t ∧ s.point t = .inRelease then
        some { s.moveTo t .outside with returned := s.returned + 1 }
      else none

section Updates

variable (s : Barrier) (t : Tid) (p : BarrierPoint)

@[simp] theorem moveTo_monitor : (s.moveTo t p).monitor = s.monitor := rfl

@[simp] theorem moveTo_entered : (s.moveTo t p).entered = s.entered := rfl

@[simp] theorem moveTo_returned : (s.moveTo t p).returned = s.returned := rfl

@[simp] theorem moveTo_point_self : (s.moveTo t p).point t = p :=
  Function.update_self ..

theorem moveTo_point_of_ne {u : Tid} (hu : u ≠ t) : (s.moveTo t p).point u = s.point u :=
  Function.update_of_ne hu ..

/-- A thread that stays where it is. -/
theorem moveTo_self : s.moveTo t (s.point t) = s := by
  simp [moveTo]

end Updates

theorem perform_eq_some {s s' : Barrier} {e : Monitor.Event} (h : s.perform e = some s') :
    ∃ monitor, s.monitor.Does e monitor ∧ s' = { s with monitor } := by
  obtain ⟨monitor, hstep, rfl⟩ := Option.map_eq_some_iff.mp h
  exact ⟨monitor, (Monitor.does_of_step hstep).2, rfl⟩

theorem step_of_perform {s s' : Barrier} {e : Monitor.Event} (h : s.perform e = some s') :
    s.monitor.step e = some s'.monitor := by
  obtain ⟨monitor, hstep, rfl⟩ := Option.map_eq_some_iff.mp h
  exact hstep

/-- Nothing but the scheduler moves. -/
structure Idle (m m' : Monitor) : Prop where
  owner : m'.owner = m.owner
  holding : m'.holding = m.holding
  callPoint : m'.callPoint = m.callPoint
  conditions : m'.conditions = m.conditions

/-- What an event does, case by case. -/
inductive Does (s : Barrier) : Event → Barrier → Prop where
  | idle {e monitor} (h : Idle s.monitor monitor) : Does s e { s with monitor }
  | resume {t wait} (hcurrent : s.monitor.scheduler.currentThread = some t)
      (hwait : s.monitor.callPoint t = .inP wait ∨
        ∃ c, wait = some c ∧ s.monitor.callPoint t = .inWait c) :
      Does s (.resume t) { s with monitor := s.monitor.Acquire t wait }
  | acquire {t} (hruns : s.monitor.Runs t) (hpoint : s.point t = .outside) :
      Does s (.acquire t) { s.moveTo t .inAcquire with monitor := s.monitor.Acquire t none }
  | count {t} (hruns : s.monitor.Runs t) (hpoint : s.point t = .inAcquire) :
      Does s (.count t) { s.moveTo t .counted with
        currentCount := wrap32 (s.currentCount + 1)
        entered := s.entered + 1 }
  | broadcast {t} (hpoint : s.point t = .counted) (hfull : s.currentCount = s.maxCount) :
      Does s (.test t) { s.moveTo t .inBroadcast with monitor := s.monitor.Broadcast t 0 }
  | wait {t} (hpoint : s.point t = .counted) (hmore : s.currentCount ≠ s.maxCount) :
      Does s (.test t) { s.moveTo t .inWait with monitor := s.monitor.Wait t 0 }
  | reset {t} (hpoint : s.point t = .inBroadcast) :
      Does s (.reset t) { s.moveTo t .emptied with currentCount := 0 }
  | release {t} (hruns : s.monitor.Runs t) (hpoint : s.point t = .inWait ∨ s.point t = .emptied) :
      Does s (.release t) { s.moveTo t .inRelease with monitor := s.monitor.Release t }
  | leave {t} (hpoint : s.point t = .inRelease) :
      Does s (.leave t) { s.moveTo t .outside with returned := s.returned + 1 }

theorem does_of_step {s s' : Barrier} {e : Event} (h : step s e = some s') : s.Does e s' := by
  cases e with
  | dispatch =>
      obtain ⟨monitor, hdoes, rfl⟩ := perform_eq_some h
      cases hdoes
      exact .idle ⟨rfl, rfl, rfl, rfl⟩
  | ready t =>
      obtain ⟨monitor, hdoes, rfl⟩ := perform_eq_some h
      cases hdoes
      exact .idle ⟨rfl, rfl, rfl, rfl⟩
  | yield t =>
      obtain ⟨monitor, hdoes, rfl⟩ := perform_eq_some h
      cases hdoes
      exact .idle ⟨rfl, rfl, rfl, rfl⟩
  | sleep t =>
      obtain ⟨-, h⟩ := Option.ite_none_right_eq_some.mp h
      obtain ⟨monitor, hdoes, rfl⟩ := perform_eq_some h
      cases hdoes
      exact .idle ⟨rfl, rfl, rfl, rfl⟩
  | resume t =>
      obtain ⟨monitor, hdoes, rfl⟩ := perform_eq_some h
      cases hdoes with
      | resume hcurrent hwait => exact .resume hcurrent hwait
  | acquire t =>
      obtain ⟨hpoint, h⟩ := Option.ite_none_right_eq_some.mp h
      obtain ⟨monitor, hdoes, rfl⟩ := perform_eq_some h
      cases hdoes with
      | acquire hruns => exact .acquire hruns hpoint
  | count t =>
      obtain ⟨⟨hruns, hpoint⟩, h⟩ := Option.ite_none_right_eq_some.mp h
      cases h
      exact .count hruns hpoint
  | test t =>
      obtain ⟨hpoint, h⟩ := Option.ite_none_right_eq_some.mp h
      split at h
      case isTrue hfull =>
        obtain ⟨monitor, hdoes, rfl⟩ := perform_eq_some h
        cases hdoes
        exact .broadcast hpoint hfull
      case isFalse hmore =>
        obtain ⟨monitor, hdoes, rfl⟩ := perform_eq_some h
        cases hdoes
        exact .wait hpoint hmore
  | reset t =>
      obtain ⟨⟨-, hpoint⟩, h⟩ := Option.ite_none_right_eq_some.mp h
      cases h
      exact .reset hpoint
  | release t =>
      obtain ⟨hpoint, h⟩ := Option.ite_none_right_eq_some.mp h
      obtain ⟨monitor, hdoes, rfl⟩ := perform_eq_some h
      cases hdoes with
      | release hruns => exact .release hruns hpoint
  | leave t =>
      obtain ⟨⟨-, hpoint⟩, h⟩ := Option.ite_none_right_eq_some.mp h
      cases h
      exact .leave hpoint

/-- The call of the lock or the condition that goes with a place in `Wait`,
and whether the lock is held there. -/
inductive Fits : BarrierPoint → CallPoint → Bool → Prop where
  | outside : Fits .outside .outside false
  | asking : Fits .inAcquire (.inP none) false
  | acquired : Fits .inAcquire .outside true
  | counted : Fits .counted .outside true
  | broadcast : Fits .inBroadcast .outside true
  | asleep : Fits .inWait (.inWait 0) false
  | awake : Fits .inWait (.inP (some 0)) false
  | woken : Fits .inWait .outside true
  | emptied : Fits .emptied .outside true
  | released : Fits .inRelease .outside false

namespace Fits

variable {p : BarrierPoint} {c : CallPoint} {b : Bool}

/-- Out of the operations, the lock is held from `Acquire` to `Release`. -/
theorem holding (h : Fits p .outside b) (hout : p ≠ .outside) (hreleased : p ≠ .inRelease) :
    b = true := by
  cases h with
  | outside => exact absurd rfl hout
  | released => exact absurd rfl hreleased
  | acquired | counted | broadcast | woken | emptied => rfl

theorem of_counted (h : Fits .counted c b) : c = .outside ∧ b = true := by
  cases h
  exact ⟨rfl, rfl⟩

theorem of_broadcast (h : Fits .inBroadcast c b) : c = .outside ∧ b = true := by
  cases h
  exact ⟨rfl, rfl⟩

theorem of_released (h : Fits .inRelease c b) : c = .outside ∧ b = false := by
  cases h
  exact ⟨rfl, rfl⟩

theorem of_outside (h : Fits .outside c b) : c = .outside ∧ b = false := by
  cases h
  exact ⟨rfl, rfl⟩

theorem point_of_asleep {d : Nat} (h : Fits p (.inWait d) b) : p = .inWait := by
  cases h
  rfl

/-- At the test of `P`: without the lock, in an `Acquire` or a `Wait`, and
the test either comes again or lets the thread through. -/
structure AtTest (p : BarrierPoint) (wait : Option Nat) (b : Bool) : Prop where
  point : p = .inAcquire ∨ p = .inWait
  holding : b = false
  again : Fits p (.inP wait) false
  through : Fits p .outside true

theorem resume (h : Fits p c b) {wait : Option Nat}
    (hwait : c = .inP wait ∨ ∃ d, wait = some d ∧ c = .inWait d) : AtTest p wait b := by
  cases h with
  | asking =>
      obtain rfl : none = wait := by simpa using hwait
      exact ⟨.inl rfl, rfl, .asking, .acquired⟩
  | asleep =>
      obtain rfl : wait = some 0 := by simpa using hwait
      exact ⟨.inr rfl, rfl, .awake, .woken⟩
  | awake =>
      obtain rfl : some 0 = wait := by simpa using hwait
      exact ⟨.inr rfl, rfl, .awake, .woken⟩
  | outside | acquired | counted | broadcast | woken | emptied | released => simp at hwait

end Fits

/-- Every thread is in the call that its place tells. -/
def Fitting (s : Barrier) : Prop :=
  ∀ t, Fits (s.point t) (s.monitor.callPoint t) (s.monitor.holding t)

namespace Fitting

variable {s s' : Barrier} {t : Tid}

theorem start (count : Int32) : (Barrier.start count).Fitting := fun _ => .outside

/-- Only thread `t` has moved, or its call. -/
theorem update (h : s.Fitting)
    (hself : Fits (s'.point t) (s'.monitor.callPoint t) (s'.monitor.holding t))
    (hpoint : ∀ u, u ≠ t → s'.point u = s.point u) (hmoves : s.monitor.Moves t s'.monitor) :
    s'.Fitting := by
  intro u
  by_cases hu : u = t
  · subst hu
    exact hself
  · rw [hpoint u hu, hmoves.callPoint u hu, hmoves.holding u hu]
    exact h u

/-- The test of `P`, in the `Acquire` of `Wait` or in that of the condition's. -/
theorem acquire (h : s.Fitting) {p : BarrierPoint} {wait : Option Nat}
    (hasleep : Fits p (.inP wait) false) (hthrough : Fits p .outside true)
    (hholding : s.monitor.holding t = false) :
    Fitting { s.moveTo t p with monitor := s.monitor.Acquire t wait } := by
  refine h.update (t := t) ?_ (fun u hu => moveTo_point_of_ne s t p hu)
    (s.monitor.Acquire_moves t wait)
  by_cases hzero : s.monitor.semaphore.value = 0
  · rw [Monitor.Acquire_asleep hzero]
    simpa [hholding] using hasleep
  · rw [Monitor.Acquire_through hzero]
    simpa using hthrough

/-- An assignment, while the thread has the CPU. -/
theorem assign (h : s.Fitting) {p : BarrierPoint}
    (hself : Fits p (s.monitor.callPoint t) (s.monitor.holding t)) : (s.moveTo t p).Fitting :=
  h.update (by simpa using hself) (fun u hu => moveTo_point_of_ne s t p hu) (.refl _ _)

/-- The call of a thread that was asleep tells where it is. -/
theorem resume (h : s.Fitting) {wait : Option Nat}
    (hwait : s.monitor.callPoint t = .inP wait ∨
      ∃ c, wait = some c ∧ s.monitor.callPoint t = .inWait c) :
    Fitting { s with monitor := s.monitor.Acquire t wait } := by
  have hthrough := (h t).resume hwait
  have hself : Fitting { s.moveTo t (s.point t) with monitor := s.monitor.Acquire t wait } :=
    h.acquire hthrough.again hthrough.through hthrough.holding
  rwa [moveTo_self] at hself

theorem wait (h : s.Fitting) (howner : s.monitor.owner = some t) :
    Fitting { s.moveTo t .inWait with monitor := s.monitor.Wait t 0 } := by
  refine h.update (t := t) ?_ (fun u hu => moveTo_point_of_ne s t _ hu)
    (Monitor.Wait_moves howner 0)
  rw [Monitor.Wait, if_pos howner, Monitor.Release, if_pos howner]
  simpa [Monitor.enqueue, Monitor.V] using Fits.asleep

theorem release (h : s.Fitting) (hcall : s.monitor.callPoint t = .outside)
    (howner : s.monitor.owner = some t) :
    Fitting { s.moveTo t .inRelease with monitor := s.monitor.Release t } := by
  refine h.update (t := t) ?_ (fun u hu => moveTo_point_of_ne s t _ hu)
    (Monitor.Release_moves howner)
  rw [Monitor.Release, if_pos howner]
  simpa [Monitor.V, hcall] using Fits.released

theorem step (h : s.Fitting) (hm : s.monitor.Sound) {e : Event} (hdoes : s.Does e s') :
    s'.Fitting := by
  have howner : ∀ {t}, s.monitor.holding t = true → s.monitor.owner = some t := fun ht =>
    (hm.locked.owner _).mpr ht
  cases hdoes with
  | idle hidle =>
      intro t
      rw [hidle.callPoint, hidle.holding]
      exact h t
  | resume _ hwait => exact h.resume hwait
  | @acquire t hruns hpoint =>
      exact h.acquire .asking .acquired (hpoint ▸ h t : Fits .outside _ _).of_outside.2
  | @count t hruns hpoint =>
      have hfits : Fits .inAcquire .outside _ := hpoint ▸ hruns.2 ▸ h t
      refine h.assign ?_
      rw [hruns.2, hfits.holding (by simp) (by simp)]
      exact .counted
  | @broadcast t hpoint hfull =>
      obtain ⟨hcall, hholding⟩ := (hpoint ▸ h t : Fits .counted _ _).of_counted
      rw [Monitor.Broadcast, if_pos (howner hholding)]
      refine h.assign ?_
      rw [hcall, hholding]
      exact .broadcast
  | @wait t hpoint hmore =>
      exact h.wait (howner (hpoint ▸ h t : Fits .counted _ _).of_counted.2)
  | @reset t hpoint =>
      obtain ⟨hcall, hholding⟩ := (hpoint ▸ h t : Fits .inBroadcast _ _).of_broadcast
      refine h.assign ?_
      rw [hcall, hholding]
      exact .emptied
  | @release t hruns hpoint =>
      have hfits : Fits (s.point t) .outside _ := hruns.2 ▸ h t
      refine h.release hruns.2 (howner (hfits.holding ?_ ?_))
      · rcases hpoint with hpoint | hpoint <;> simp [hpoint]
      · rcases hpoint with hpoint | hpoint <;> simp [hpoint]
  | @leave t hpoint =>
      obtain ⟨hcall, hholding⟩ := (hpoint ▸ h t : Fits .inRelease _ _).of_released
      refine h.assign ?_
      rw [hcall, hholding]
      exact .outside

end Fitting

/-- The threads inside are those that have entered and not returned. -/
def Accounted (s : Barrier) : Prop :=
  ∃ inside : Finset Tid, (∀ t, t ∈ inside ↔ (s.point t).Inside) ∧
    s.returned + inside.card = s.entered

namespace Accounted

variable {s s' : Barrier} {t : Tid}

theorem start (count : Int32) : (Barrier.start count).Accounted :=
  ⟨∅, fun t => by simp [Barrier.start, BarrierPoint.Inside], rfl⟩

/-- Nobody goes in or out. -/
theorem keep (h : s.Accounted) (hinside : ∀ t, (s'.point t).Inside ↔ (s.point t).Inside)
    (hentered : s'.entered = s.entered) (hreturned : s'.returned = s.returned) :
    s'.Accounted := by
  obtain ⟨inside, hmem, hcard⟩ := h
  refine ⟨inside, fun t => (hmem t).trans (hinside t).symm, ?_⟩
  rw [hentered, hreturned, hcard]

/-- A thread moves on, on the same side. -/
theorem inside_moveTo {p : BarrierPoint} (hp : p.Inside ↔ (s.point t).Inside) (u : Tid) :
    ((s.moveTo t p).point u).Inside ↔ (s.point u).Inside := by
  by_cases hu : u = t
  · subst hu
    rw [moveTo_point_self, hp]
  · rw [moveTo_point_of_ne s t p hu]

theorem count (h : s.Accounted) (hpoint : s.point t = .inAcquire) (c : Int) :
    Accounted { s.moveTo t .counted with currentCount := c, entered := s.entered + 1 } := by
  obtain ⟨inside, hmem, hcard⟩ := h
  have ht : t ∉ inside := by simp [hmem, hpoint, BarrierPoint.Inside]
  refine ⟨insert t inside, fun u => ?_, ?_⟩
  · by_cases hu : u = t
    · subst hu
      simp [BarrierPoint.Inside]
    · simp [hu, hmem, moveTo]
  · rw [Finset.card_insert_of_notMem ht]
    simp only [moveTo_returned]
    omega

theorem leave (h : s.Accounted) (hpoint : s.point t = .inRelease) :
    Accounted { s.moveTo t .outside with returned := s.returned + 1 } := by
  obtain ⟨inside, hmem, hcard⟩ := h
  have ht : t ∈ inside := by simp [hmem, hpoint, BarrierPoint.Inside]
  refine ⟨inside.erase t, fun u => ?_, ?_⟩
  · by_cases hu : u = t
    · subst hu
      simp [BarrierPoint.Inside]
    · simp [hu, hmem, moveTo]
  · have hpos := Finset.card_pos.mpr ⟨t, ht⟩
    rw [Finset.card_erase_of_mem ht]
    simp only [moveTo_entered]
    omega

theorem step (h : s.Accounted) {e : Event} (hdoes : s.Does e s') : s'.Accounted := by
  cases hdoes with
  | idle | resume => exact h.keep (fun u => Iff.rfl) rfl rfl
  | acquire _ hpoint =>
      exact h.keep (inside_moveTo (by simp [hpoint, BarrierPoint.Inside])) rfl rfl
  | count _ hpoint => exact h.count hpoint _
  | broadcast hpoint | wait hpoint | reset hpoint =>
      exact h.keep (inside_moveTo (by simp [hpoint, BarrierPoint.Inside])) rfl rfl
  | release _ hpoint =>
      refine h.keep (inside_moveTo ?_) rfl rfl
      rcases hpoint with hpoint | hpoint <;> simp [hpoint, BarrierPoint.Inside]
  | leave hpoint => exact h.leave hpoint

/-- Who sleeps in the queue has entered, and so has a thread inside that is
not asleep. -/
theorem length_le (h : s.Accounted) {queue : List Tid} (hnodup : queue.Nodup)
    (hqueue : ∀ t ∈ queue, (s.point t).Inside) : s.returned + queue.length ≤ s.entered := by
  obtain ⟨inside, hmem, hcard⟩ := h
  have hsub : queue.toFinset ⊆ inside := fun t ht =>
    (hmem t).mpr (hqueue t (List.mem_toFinset.mp ht))
  have hle := Finset.card_le_card hsub
  rw [List.toFinset_card_of_nodup hnodup] at hle
  omega

end Accounted

/-- The count `c` and the length `q` of the queue after `a` entries, by where
the holder of the lock is. -/
def Tally (m : Int) (a : Nat) (c : Int) (q : Nat) : BarrierPoint → Prop
  | .counted => 1 ≤ c ∧ c ≤ m ∧ c % m = a % m ∧ q + 1 = c
  | .inBroadcast => (a : Int) % m = 0 ∧ q = 0
  | _ => c = a % m ∧ q = c

theorem Tally.emod_le {m c : Int} {a q : Nat} {p : BarrierPoint} (h : Tally m a c q p)
    (hp : p ≠ .counted) : (a : Int) % m ≤ q := by
  cases p with
  | counted => exact absurd rfl hp
  | inBroadcast => exact h.1.le.trans (Int.natCast_nonneg q)
  | outside | inAcquire | inWait | emptied | inRelease => exact (h.1.symm.trans h.2.symm).le

/-- Where the holder of the lock is. -/
def holderPoint (s : Barrier) : BarrierPoint :=
  s.monitor.owner.elim .outside s.point

/-- Out of the count and the broadcast, the count is that of the entries of
the round, who are all in the queue. -/
structure Tallied (s : Barrier) : Prop where
  positive : 1 ≤ s.maxCount
  fits : s.maxCount < 2 ^ 31
  tally : Tally s.maxCount s.entered s.currentCount (s.monitor.conditions 0).length s.holderPoint

namespace Tallied

variable {s s' : Barrier} {t : Tid}

theorem start {count : Int32} (hcount : 1 ≤ count.toInt) : (Barrier.start count).Tallied where
  positive := hcount
  fits := Int32.toInt_lt count
  tally := by simp [Tally, holderPoint, Barrier.start, Monitor.start]

theorem holderPoint_eq (howner : s.monitor.owner = some t) : s.holderPoint = s.point t := by
  simp [holderPoint, howner]

theorem holderPoint_free (howner : s.monitor.owner = none) : s.holderPoint = .outside := by
  simp [holderPoint, howner]

theorem holderPoint_moveTo (hne : s.monitor.owner ≠ some t) (p : BarrierPoint) :
    (s.moveTo t p).holderPoint = s.holderPoint := by
  cases howner : s.monitor.owner with
  | none => rw [holderPoint_free howner, holderPoint_free (s := s.moveTo t p) howner]
  | some u =>
      have hu : u ≠ t := by
        rintro rfl
        exact hne howner
      rw [holderPoint_eq howner, holderPoint_eq (s := s.moveTo t p) howner]
      exact moveTo_point_of_ne s t p hu

theorem of_owner {p : BarrierPoint} (positive : 1 ≤ s.maxCount) (fits : s.maxCount < 2 ^ 31)
    (howner : s.monitor.owner = some t) (hpoint : s.point t = p)
    (htally : Tally s.maxCount s.entered s.currentCount (s.monitor.conditions 0).length p) :
    s.Tallied := by
  refine ⟨positive, fits, ?_⟩
  rwa [holderPoint_eq howner, hpoint]

theorem of_free (positive : 1 ≤ s.maxCount) (fits : s.maxCount < 2 ^ 31)
    (howner : s.monitor.owner = none) (hcount : s.currentCount = s.entered % s.maxCount)
    (hqueue : ((s.monitor.conditions 0).length : Int) = s.currentCount) : s.Tallied := by
  refine ⟨positive, fits, ?_⟩
  rw [holderPoint_free howner]
  exact ⟨hcount, hqueue⟩

/-- The holder goes on from a point to another, or it changes, but nobody
counts or joins the queue. -/
theorem keep (h : s.Tallied) (hmax : s'.maxCount = s.maxCount) (hentered : s'.entered = s.entered)
    (hcount : s'.currentCount = s.currentCount)
    (hqueue : s'.monitor.conditions 0 = s.monitor.conditions 0)
    (hholder : Tally s.maxCount s.entered s.currentCount (s.monitor.conditions 0).length
      s.holderPoint → Tally s.maxCount s.entered s.currentCount (s.monitor.conditions 0).length
      s'.holderPoint) : s'.Tallied := by
  refine ⟨?_, ?_, ?_⟩
  · rw [hmax]
    exact h.positive
  · rw [hmax]
    exact h.fits
  · rw [hmax, hentered, hcount, hqueue]
    exact hholder h.tally

/-- Who comes through an `Acquire` finds the lock free. -/
theorem acquire (h : s.Tallied) (hlocked : s.monitor.Locked) {p : BarrierPoint}
    {wait : Option Nat} (hp : p = .inAcquire ∨ p = .inWait)
    (ht : s.monitor.holding t = false) :
    Tallied { s.moveTo t p with monitor := s.monitor.Acquire t wait } := by
  by_cases hzero : s.monitor.semaphore.value = 0
  · rw [Monitor.Acquire_asleep hzero]
    refine h.keep rfl rfl rfl rfl fun htally => ?_
    have hne : s.monitor.owner ≠ some t := by
      intro howner
      rw [(hlocked.owner t).mp howner] at ht
      cases ht
    exact holderPoint_moveTo hne p ▸ htally
  · have hfree : s.monitor.owner = none := by
      by_contra howned
      exact hzero (by rw [hlocked.value, if_neg howned])
    rw [Monitor.Acquire_through hzero]
    refine h.keep rfl rfl rfl rfl fun htally => ?_
    rw [holderPoint_free hfree] at htally
    rw [holderPoint_eq rfl]
    rcases hp with rfl | rfl <;> simpa [Tally] using htally

/-- The count goes up while the lock is held. -/
theorem count (h : s.Tallied) (howner : s.monitor.owner = some t)
    (hpoint : s.point t = .inAcquire) :
    Tallied { s.moveTo t .counted with
      currentCount := wrap32 (s.currentCount + 1)
      entered := s.entered + 1 } := by
  have hm := h.positive
  have hfits := h.fits
  have htally := h.tally
  rw [holderPoint_eq howner, hpoint] at htally
  obtain ⟨hcount, hqueue⟩ := htally
  have hlow := Int.emod_nonneg s.entered (b := s.maxCount) (by omega)
  have hhigh := Int.emod_lt_of_pos (s.entered : Int) (b := s.maxCount) (by omega)
  have hwrap : wrap32 (s.currentCount + 1) = s.currentCount + 1 :=
    wrap32_of_range (by omega) (by omega)
  rw [hwrap]
  refine of_owner hm hfits howner (moveTo_point_self s t .counted) ⟨?_, ?_, ?_, ?_⟩
  · show 1 ≤ s.currentCount + 1
    omega
  · show s.currentCount + 1 ≤ s.maxCount
    omega
  · show (s.currentCount + 1) % s.maxCount = ((s.entered + 1 : Nat) : Int) % s.maxCount
    rw [hcount, Int.emod_add_emod]
    push_cast
    rfl
  · show ((s.monitor.conditions 0).length : Int) + 1 = s.currentCount + 1
    omega

/-- At the end of a round the queue is emptied. -/
theorem broadcast (h : s.Tallied) (howner : s.monitor.owner = some t)
    (hpoint : s.point t = .counted) (hfull : s.currentCount = s.maxCount) :
    Tallied { s.moveTo t .inBroadcast with monitor := s.monitor.Broadcast t 0 } := by
  have htally := h.tally
  rw [holderPoint_eq howner, hpoint] at htally
  obtain ⟨-, -, hmod, -⟩ := htally
  rw [hfull, Int.emod_self] at hmod
  rw [Monitor.Broadcast, if_pos howner]
  exact of_owner h.positive h.fits howner (moveTo_point_self s t .inBroadcast)
    ⟨hmod.symm, by simp⟩

/-- Before it the thread joins the queue, and gives the lock away. -/
theorem wait (h : s.Tallied) (howner : s.monitor.owner = some t)
    (hpoint : s.point t = .counted) (hmore : s.currentCount ≠ s.maxCount) :
    Tallied { s.moveTo t .inWait with monitor := s.monitor.Wait t 0 } := by
  have htally := h.tally
  rw [holderPoint_eq howner, hpoint] at htally
  obtain ⟨hlow, hhigh, hmod, hqueue⟩ := htally
  rw [Int.emod_eq_of_lt (by omega) (by omega)] at hmod
  rw [Monitor.Wait, if_pos howner, Monitor.Release, if_pos howner]
  refine of_free h.positive h.fits rfl hmod ?_
  simp only [Monitor.enqueue, Monitor.V, Function.update_self, List.length_append,
    List.length_singleton]
  push_cast
  exact hqueue

theorem reset (h : s.Tallied) (howner : s.monitor.owner = some t)
    (hpoint : s.point t = .inBroadcast) :
    Tallied { s.moveTo t .emptied with currentCount := 0 } := by
  have htally := h.tally
  rw [holderPoint_eq howner, hpoint] at htally
  obtain ⟨hmod, hqueue⟩ := htally
  refine of_owner h.positive h.fits howner (moveTo_point_self s t .emptied) ⟨hmod.symm, ?_⟩
  show ((s.monitor.conditions 0).length : Int) = 0
  omega

theorem release (h : s.Tallied) (howner : s.monitor.owner = some t)
    (hpoint : s.point t = .inWait ∨ s.point t = .emptied) :
    Tallied { s.moveTo t .inRelease with monitor := s.monitor.Release t } := by
  rw [Monitor.Release, if_pos howner]
  refine h.keep rfl rfl rfl rfl fun htally => ?_
  rw [holderPoint_eq howner] at htally
  rw [holderPoint_free rfl]
  rcases hpoint with hpoint | hpoint <;> simpa [hpoint, Tally] using htally

/-- Who does not hold the lock may go anywhere. -/
theorem moveTo (h : s.Tallied) (hne : s.monitor.owner ≠ some t) {p : BarrierPoint}
    {returned : Nat} : Tallied { s.moveTo t p with returned } :=
  h.keep rfl rfl rfl rfl fun htally => holderPoint_moveTo hne p ▸ htally

theorem step (h : s.Tallied) (hm : s.monitor.Sound) (hfitting : s.Fitting) {e : Event}
    (hdoes : s.Does e s') : s'.Tallied := by
  have howner : ∀ {t}, s.monitor.holding t = true → s.monitor.owner = some t := fun ht =>
    (hm.locked.owner _).mpr ht
  cases hdoes with
  | idle hidle =>
      refine h.keep rfl rfl rfl (by rw [hidle.conditions]) fun htally => ?_
      rwa [holderPoint, hidle.owner]
  | @resume t wait _ hwait =>
      have htest := (hfitting t).resume hwait
      have hself : Tallied { s.moveTo t (s.point t) with monitor := s.monitor.Acquire t wait } :=
        h.acquire hm.locked htest.point htest.holding
      rwa [moveTo_self] at hself
  | @acquire t hruns hpoint =>
      exact h.acquire hm.locked (.inl rfl) (hpoint ▸ hfitting t).of_outside.2
  | @count t hruns hpoint =>
      have hfits := hruns.2 ▸ hfitting t
      exact h.count (howner (hfits.holding (by simp [hpoint]) (by simp [hpoint]))) hpoint
  | @broadcast t hpoint hfull =>
      exact h.broadcast (howner (hpoint ▸ hfitting t).of_counted.2) hpoint hfull
  | @wait t hpoint hmore =>
      exact h.wait (howner (hpoint ▸ hfitting t).of_counted.2) hpoint hmore
  | @reset t hpoint => exact h.reset (howner (hpoint ▸ hfitting t).of_broadcast.2) hpoint
  | @release t hruns hpoint =>
      have hfits := hruns.2 ▸ hfitting t
      refine h.release (howner (hfits.holding ?_ ?_)) hpoint
      · rcases hpoint with hpoint | hpoint <;> simp [hpoint]
      · rcases hpoint with hpoint | hpoint <;> simp [hpoint]
  | @leave t hpoint =>
      refine h.moveTo fun hself => ?_
      have hholding := (hpoint ▸ hfitting t : Fits .inRelease _ _).of_released.2
      rw [(hm.locked.owner t).mp hself] at hholding
      cases hholding

end Tallied

/-- The monitor takes a step of its own or none, and no `Release` from
elsewhere than the end of `Wait`. -/
theorem monitor_of_step {s s' : Barrier} {e : Event} (h : step s e = some s') :
    s'.monitor = s.monitor ∨ ∃ e', s.monitor.step e' = some s'.monitor ∧
      ∀ t, e' = .release t → s.point t = .inWait ∨ s.point t = .emptied := by
  cases e with
  | dispatch | ready | yield | resume => exact .inr ⟨_, step_of_perform h, nofun⟩
  | sleep t =>
      obtain ⟨-, h⟩ := Option.ite_none_right_eq_some.mp h
      exact .inr ⟨_, step_of_perform h, nofun⟩
  | acquire t =>
      obtain ⟨-, h⟩ := Option.ite_none_right_eq_some.mp h
      have hmonitor := step_of_perform h
      exact .inr ⟨_, hmonitor, nofun⟩
  | test t =>
      obtain ⟨-, h⟩ := Option.ite_none_right_eq_some.mp h
      split at h
      case isTrue =>
        have hmonitor := step_of_perform h
        exact .inr ⟨_, hmonitor, nofun⟩
      case isFalse =>
        have hmonitor := step_of_perform h
        exact .inr ⟨_, hmonitor, nofun⟩
  | release t =>
      obtain ⟨hpoint, h⟩ := Option.ite_none_right_eq_some.mp h
      have hmonitor := step_of_perform h
      refine .inr ⟨_, hmonitor, fun u hu => ?_⟩
      cases hu
      exact hpoint
  | count | reset | leave =>
      obtain ⟨-, h⟩ := Option.ite_none_right_eq_some.mp h
      cases h
      exact .inl rfl

/-- The invariants together. -/
structure Sound (s : Barrier) : Prop where
  monitor : s.monitor.Sound
  alive : s.monitor.failed = false
  fitting : s.Fitting
  accounted : s.Accounted
  tallied : s.Tallied

/-- No more returns than there are threads in the rounds that are over; and
as long as nobody holds the lock, those that have entered the next round, and
nobody else, are counted and in the queue. -/
structure Separated (s : Barrier) : Prop where
  rounds : (s.returned : Int) ≤ s.maxCount * (s.entered / s.maxCount)
  count : (∀ t, s.monitor.holding t = false) → s.currentCount = s.entered % s.maxCount
  queue : (∀ t, s.monitor.holding t = false) →
    ((s.monitor.conditions 0).length : Int) = s.currentCount

namespace Sound

variable {s s' : Barrier} {t : Tid}

theorem start {count : Int32} (hcount : 1 ≤ count.toInt) : (Barrier.start count).Sound :=
  ⟨.start, rfl, .start count, .start count, .start hcount⟩

theorem holding (h : s.Sound) (hcall : s.monitor.callPoint t = .outside)
    (hout : s.point t ≠ .outside) (hreleased : s.point t ≠ .inRelease) :
    s.monitor.holding t = true :=
  (hcall ▸ h.fitting t).holding hout hreleased

/-- No `ASSERT` fails: whoever comes to the `Release` holds the lock. -/
theorem monitor_step (h : s.Sound) {e : Event} (hstep : step s e = some s') :
    s'.monitor.Sound ∧ s'.monitor.failed = false := by
  rcases monitor_of_step hstep with hsame | ⟨e', hmonitor, hrelease⟩
  · rw [hsame]
    exact ⟨h.monitor, h.alive⟩
  · refine ⟨h.monitor.step hmonitor, h.monitor.alive_of_release hmonitor fun t he hruns => ?_⟩
    refine h.holding hruns.2 ?_ ?_ <;>
      rcases hrelease t he with hpoint | hpoint <;> simp [hpoint]

theorem step (h : s.Sound) {e : Event} (hstep : step s e = some s') : s'.Sound := by
  have hdoes := does_of_step hstep
  obtain ⟨hmonitor, halive⟩ := h.monitor_step hstep
  exact ⟨hmonitor, halive, h.fitting.step h.monitor hdoes, h.accounted.step hdoes,
    h.tallied.step h.monitor h.fitting hdoes⟩

/-- Who sleeps in the queue is in the `Wait` of the condition. -/
theorem point_of_mem (h : s.Sound) (ht : t ∈ s.monitor.conditions 0) : s.point t = .inWait :=
  ((h.monitor.scheduled.mem_condition_iff.mp ht).1 ▸ h.fitting t).point_of_asleep

/-- The threads of the round have entered, and are not back. -/
theorem returned_add_le (h : s.Sound) :
    (s.returned : Int) + s.entered % s.maxCount ≤ s.entered := by
  have hinside : ∀ t ∈ s.monitor.conditions 0, (s.point t).Inside := fun t ht => by
    simp [h.point_of_mem ht, BarrierPoint.Inside]
  have hnodup : (s.monitor.conditions 0).Nodup := h.monitor.scheduled.placed.nodup (.condition 0)
  have htally := h.tallied.tally
  by_cases hcounted : ∃ t, s.monitor.owner = some t ∧ s.point t = .counted
  case pos =>
    -- The holder has entered too, and is not asleep.
    obtain ⟨t, howner, hpoint⟩ := hcounted
    rw [Tallied.holderPoint_eq howner, hpoint] at htally
    obtain ⟨hlow, hhigh, hmod, hqueue⟩ := htally
    have ht : t ∉ s.monitor.conditions 0 := by
      intro hmem
      rw [h.point_of_mem hmem] at hpoint
      cases hpoint
    have hle := h.accounted.length_le (List.nodup_cons.mpr ⟨ht, hnodup⟩) (by
      simpa [hpoint, BarrierPoint.Inside] using hinside)
    rw [List.length_cons] at hle
    have hemod : s.currentCount % s.maxCount ≤ s.currentCount := by
      rcases hhigh.lt_or_eq with hmore | hfull
      · exact (Int.emod_eq_of_lt (by omega) hmore).le
      · rw [hfull, Int.emod_self]
        omega
    omega
  case neg =>
    have hle := h.accounted.length_le hnodup hinside
    have hholder : s.holderPoint ≠ .counted := by
      intro hholder
      cases howner : s.monitor.owner with
      | none => simp [Tallied.holderPoint_free howner] at hholder
      | some t => exact hcounted ⟨t, howner, (Tallied.holderPoint_eq howner).symm.trans hholder⟩
    have hemod := htally.emod_le hholder
    omega

theorem rounds (h : s.Sound) :
    (s.returned : Int) ≤ s.maxCount * (s.entered / s.maxCount) := by
  have hle := h.returned_add_le
  have hdiv := Int.mul_ediv_add_emod (s.entered : Int) s.maxCount
  omega

theorem separated (h : s.Sound) : s.Separated := by
  have hfree : (∀ t, s.monitor.holding t = false) → s.monitor.owner = none := by
    intro hnone
    by_contra howned
    obtain ⟨t, ht⟩ := Option.ne_none_iff_exists'.mp howned
    rw [h.monitor.locked.owner, hnone t] at ht
    cases ht
  refine ⟨h.rounds, fun hnone => ?_, fun hnone => ?_⟩
  · have htally := h.tallied.tally
    rw [Tallied.holderPoint_free (hfree hnone)] at htally
    exact htally.1
  · have htally := h.tallied.tally
    rw [Tallied.holderPoint_free (hfree hnone)] at htally
    exact htally.2

theorem of_exec {count : Int32} (hcount : 1 ≤ count.toInt) {events : List Event}
    (hrun : exec Barrier.step (Barrier.start count) events = some s) : s.Sound :=
  exec_induction (fun h hstep => step h hstep) (start hcount) hrun

/-- A thread that has the CPU in `Wait` can go on. -/
theorem goes_on (h : s.Sound) (ht : s.monitor.scheduler.currentThread = some t)
    (hpoint : s.point t ≠ .outside) :
    ∃ e ∈ [.resume t, .count t, .test t, .reset t, .release t, .leave t],
      (Barrier.step s e).isSome := by
  have halive := h.alive
  cases hcall : s.monitor.callPoint t with
  | inP wait => exact ⟨.resume t, by simp, by simp [Barrier.step, perform, Monitor.step, *]⟩
  | inWait c => exact ⟨.resume t, by simp, by simp [Barrier.step, perform, Monitor.step, *]⟩
  | outside =>
      have hruns : s.monitor.Runs t := ⟨ht, hcall⟩
      cases hp : s.point t with
      | outside => exact absurd hp hpoint
      | inAcquire => exact ⟨.count t, by simp, by simp [Barrier.step, *]⟩
      | counted =>
          have hholding := h.holding hcall (by simp [hp]) (by simp [hp])
          refine ⟨.test t, by simp, ?_⟩
          by_cases hfull : s.currentCount = s.maxCount
          · simp [Barrier.step, perform, Monitor.step, *]
          · simp [Barrier.step, perform, Monitor.step, *]
      | inBroadcast => exact ⟨.reset t, by simp, by simp [Barrier.step, *]⟩
      | inWait | emptied =>
          exact ⟨.release t, by simp, by simp [Barrier.step, perform, Monitor.step, *]⟩
      | inRelease => exact ⟨.leave t, by simp, by simp [Barrier.step, *]⟩

end Sound

/-- **The barrier separates rounds**, with any number of threads, however
often they come back, and in whatever order they get the CPU. -/
theorem separated_of_exec {count : Int32} (hcount : 1 ≤ count.toInt) {events : List Event}
    {s : Barrier} (hrun : exec step (start count) events = some s) : s.Separated :=
  (Sound.of_exec hcount hrun).separated

/-- Threads 0 and 1 meet, and 0 waits for the next round before 1 has left. -/
def overlap : List Event :=
  [.ready 1, .acquire 0, .count 0, .test 0, .dispatch, .acquire 1, .count 1, .test 1, .reset 1,
    .release 1, .yield 1, .resume 0, .release 0, .leave 0, .acquire 0, .count 0, .test 0]

theorem separated_overlap :
    ∃ s, exec step (start 2) overlap = some s ∧ s.returned = 1 ∧ s.Separated := by
  have hreturned : (exec step (start 2) overlap).map Barrier.returned = some 1 := rfl
  obtain ⟨s, hrun, hreturned⟩ := Option.map_eq_some_iff.mp hreturned
  exact ⟨s, hrun, hreturned, separated_of_exec (by decide) hrun⟩

end Barrier

end DistributedAscii.NachOS
