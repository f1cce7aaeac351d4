import DistributedAscii.NachOS.DiningPh

/-!
# NachOS — a safe dinner

Neighbours never eat together, and no wake-up is lost. The state of a
philosopher is changed by his neighbours too: `Laid` says what it can be at
each place of his, and for whom the holder of the lock still has to test;
`Woken` that nobody sleeps on who was let eat.
-/

namespace DistributedAscii.NachOS

open Lib.Runs

namespace DiningPh

/-- What the state of a philosopher can be at a place of his. -/
def StateAt (st : PhState) : PhPoint → Prop
  | .thinking => st = .Thinking
  | .inAcquire .pickup => st = .Thinking
  | .test .own => st = .Hungry
  | .eat .own => st = .Hungry
  | .signal .own => st = .Eating
  | .tested => st ≠ .Thinking
  | .inWait => st ≠ .Thinking
  | .finish .pickup => st = .Eating
  | .inRelease .pickup => st = .Eating
  | .eating => st = .Eating
  | .inAcquire .putdown => st = .Eating
  | .test _ => st = .Thinking
  | .eat _ => st = .Thinking
  | .signal _ => st = .Thinking
  | .finish .putdown => st = .Thinking
  | .inRelease .putdown => st = .Thinking

/-- A neighbour is eating. -/
def Fed (s : DiningPh) (i : Fin 5) : Prop :=
  s.state (i + 4) = .Eating ∨ s.state (i + 1) = .Eating

/-- Whom philosopher `who` still has to test at a place of his. -/
def Pending (who : Fin 5) : PhPoint → Fin 5 → Prop
  | .test .own, i => i = who
  | .eat .own, i => i = who
  | .test .left, i => i = who + 4 ∨ i = who + 1
  | .eat .left, i => i = who + 4 ∨ i = who + 1
  | .signal .left, i => i = who + 1
  | .test .right, i => i = who + 1
  | .eat .right, i => i = who + 1
  | _, _ => False

namespace Pending

variable {who i : Fin 5} {p : PhPoint} {seat : Seat}

theorem held (h : Pending who p i) : p.Held := by
  unfold Pending at h
  split at h <;> trivial

theorem of_test (h : Pending who (.test seat) i) :
    i = seat.of who ∨ Pending who seat.behind i := by
  cases seat with
  | own => exact .inl h
  | left => exact h
  | right => exact .inl h

theorem of_eat (h : Pending who (.eat seat) i) :
    i = seat.of who ∨ Pending who (.signal seat) i := by
  cases seat with
  | own => exact .inl h
  | left => exact h
  | right => exact .inl h

theorem of_signal (h : Pending who (.signal seat) i) : Pending who seat.behind i := by
  cases seat with
  | own => cases h
  | left => exact h
  | right => cases h

end Pending

/-- Where a philosopher can be hungry: with the lock, or in his `Wait`. -/
theorem StateAt.of_hungry {p : PhPoint} (h : StateAt .Hungry p) : p.Held ∨ p = .inWait := by
  unfold StateAt at h
  split at h <;> first | exact .inl trivial | exact .inr rfl | cases h

/-- The forks and the queues, at any time: neighbours do not eat together,
who is about to eat may do so and who is signalled does so; and who is hungry
has a neighbour that eats or one that will test for him, and, in his `Wait`,
has not left the queue. -/
structure Laid (s : DiningPh) : Prop where
  states : ∀ who, StateAt (s.state who) (s.point who)
  safe : ∀ who, s.state who = .Eating → s.state (who + 1) ≠ .Eating
  eats : ∀ who seat, s.point who = .eat seat → s.CanEat (seat.of who)
  signals : ∀ who seat, s.point who = .signal seat → s.state (seat.of who) = .Eating
  fed : ∀ i, s.state i = .Hungry → s.Fed i ∨ ∃ who, Pending who (s.point who) i
  waits : ∀ who, s.point who = .inWait → s.state who = .Hungry →
    thread who ∈ s.monitor.conditions who

namespace Laid

variable {s s' : DiningPh} {who : Fin 5} {p : PhPoint}

theorem start : DiningPh.start.Laid where
  states _ := rfl
  safe _ h := nomatch h
  eats _ _ h := nomatch h
  signals _ _ h := nomatch h
  fed _ h := nomatch h
  waits _ h := nomatch h

/-- A philosopher goes on, and no state changes. -/
theorem move (h : s.Laid) {monitor : Monitor} (hstate : StateAt (s.state who) p)
    (heats : ∀ seat, p = .eat seat → s.CanEat (seat.of who))
    (hsignals : ∀ seat, p = .signal seat → s.state (seat.of who) = .Eating)
    (hfed : ∀ i, s.state i = .Hungry → Pending who (s.point who) i →
      s.Fed i ∨ Pending who p i)
    (hself : p = .inWait → s.state who = .Hungry → thread who ∈ monitor.conditions who)
    (hwaits : ∀ other, other ≠ who → s.state other = .Hungry →
      thread other ∈ s.monitor.conditions other → thread other ∈ monitor.conditions other) :
    Laid { s.moveTo who p with monitor } := by
  have hpoint : ∀ {other},
      (s.moveTo who p).point other = if other = who then p else s.point other :=
    fun {other} => Function.update_apply ..
  refine ⟨fun other => ?_, h.safe, fun other seat hp => ?_, fun other seat hp => ?_,
    fun i hi => ?_, fun other hp hi => ?_⟩
  · by_cases hother : other = who
    · subst hother
      simpa using hstate
    · rw [moveTo_point_of_ne s who p hother]
      exact h.states other
  · by_cases hother : other = who
    · subst hother
      exact heats seat (by simpa using hp)
    · exact h.eats other seat (by simpa [hpoint, hother] using hp)
  · by_cases hother : other = who
    · subst hother
      exact hsignals seat (by simpa using hp)
    · exact h.signals other seat (by simpa [hpoint, hother] using hp)
  · rcases h.fed i hi with hfed' | ⟨other, hpending⟩
    · exact .inl hfed'
    · by_cases hother : other = who
      · subst hother
        refine (hfed i hi hpending).imp_right fun hpending => ⟨other, ?_⟩
        simpa using hpending
      · refine .inr ⟨other, ?_⟩
        rwa [moveTo_point_of_ne s who p hother]
  · by_cases hother : other = who
    · subst hother
      exact hself (by simpa using hp) hi
    · exact hwaits other hother hi (h.waits other (by simpa [hpoint, hother] using hp) hi)

/-- The first neighbour of one is the other of the other. -/
theorem add_one_eq {i j : Fin 5} : i + 1 = j ↔ i = j + 4 := by
  revert i j
  decide

theorem add_one_ne (i : Fin 5) : i + 1 ≠ i := by
  revert i
  decide

/-- Only the holder of the lock still has to test. -/
theorem fed_or_pending (h : s.Laid) (halone : ∀ other, other ≠ who → ¬(s.point other).Held)
    {i : Fin 5} (hi : s.state i = .Hungry) : s.Fed i ∨ Pending who (s.point who) i := by
  rcases h.fed i hi with hfed | ⟨other, hpending⟩
  · exact .inl hfed
  · by_cases hother : other = who
    · exact .inr (hother ▸ hpending)
    · exact absurd hpending.held (halone other hother)

/-- The holder of the lock changes a state. -/
theorem change (h : s.Laid) (halone : ∀ other, other ≠ who → ¬(s.point other).Held)
    {i : Fin 5} {st : PhState} (hwho : StateAt ((s.setState i st).state who) p)
    (hothers : ∀ other, other ≠ who → StateAt ((s.setState i st).state other) (s.point other))
    (hsafe : ∀ j, (s.setState i st).state j = .Eating → (s.setState i st).state (j + 1) ≠ .Eating)
    (heats : ∀ seat, p ≠ .eat seat)
    (hsignals : ∀ seat, p = .signal seat → (s.setState i st).state (seat.of who) = .Eating)
    (hfed : ∀ j, (s.setState i st).state j = .Hungry →
      (s.setState i st).Fed j ∨ Pending who p j)
    (hwait : p ≠ .inWait)
    (hhungry : ∀ other, other ≠ who → (s.setState i st).state other = .Hungry →
      s.state other = .Hungry) : Laid ((s.setState i st).moveTo who p) := by
  refine ⟨fun other => ?_, hsafe, fun other seat hp => ?_, fun other seat hp => ?_,
    fun j hj => ?_, fun other hp hi => ?_⟩
  · by_cases hother : other = who
    · rw [hother, moveTo_point_self]
      exact hwho
    · rw [moveTo_point_of_ne _ _ _ hother]
      exact hothers other hother
  · by_cases hother : other = who
    · rw [hother, moveTo_point_self] at hp
      exact absurd hp (heats seat)
    · rw [moveTo_point_of_ne _ _ _ hother, setState_point] at hp
      exact absurd (hp ▸ trivial : (s.point other).Held) (halone other hother)
  · by_cases hother : other = who
    · rw [hother, moveTo_point_self] at hp
      rw [hother]
      exact hsignals seat hp
    · rw [moveTo_point_of_ne _ _ _ hother, setState_point] at hp
      exact absurd (hp ▸ trivial : (s.point other).Held) (halone other hother)
  · refine (hfed j hj).imp_right fun hpending => ⟨who, ?_⟩
    rwa [moveTo_point_self]
  · by_cases hother : other = who
    · rw [hother, moveTo_point_self] at hp
      exact absurd hp hwait
    · rw [moveTo_point_of_ne _ _ _ hother] at hp
      exact h.waits other hp (hhungry other hother hi)

/-- `state[who] = Hungry` of `pickup`. -/
theorem hungry (h : s.Laid) (halone : ∀ other, other ≠ who → ¬(s.point other).Held)
    (hpoint : s.point who = .inAcquire .pickup) :
    Laid ((s.setState who .Hungry).moveTo who (.test .own)) := by
  have hthinking : s.state who = .Thinking := by simpa [hpoint, StateAt] using h.states who
  have hstate : ∀ {i}, i ≠ who → (s.setState who .Hungry).state i = s.state i :=
    fun hi => setState_state_of_ne s who _ hi
  have heating : ∀ {i}, (s.setState who .Hungry).state i = .Eating ↔ s.state i = .Eating := by
    intro i
    by_cases hi : i = who
    · simp [hi, hthinking]
    · rw [hstate hi]
  refine h.change halone (by simp [StateAt]) (fun other hother => ?_) (fun j => ?_) (by simp)
    (by simp) (fun j hj => ?_) (by simp) (fun other hother hi => ?_)
  · rw [hstate hother]
    exact h.states other
  · simpa [heating] using h.safe j
  · by_cases hjw : j = who
    · exact .inr hjw
    · rw [hstate hjw] at hj
      rcases h.fed_or_pending halone hj with hfed | hpending
      · exact .inl (by simpa [Fed, heating] using hfed)
      · rw [hpoint] at hpending
        cases hpending
  · rwa [hstate hother] at hi

/-- `state[who] = Thinking` of `putdown`: his neighbours are to be tested. -/
theorem full (h : s.Laid) (halone : ∀ other, other ≠ who → ¬(s.point other).Held)
    (hpoint : s.point who = .inAcquire .putdown) :
    Laid ((s.setState who .Thinking).moveTo who (.test .left)) := by
  have hstate : ∀ {i}, i ≠ who → (s.setState who .Thinking).state i = s.state i :=
    fun hi => setState_state_of_ne s who _ hi
  have heating : ∀ {i}, (s.setState who .Thinking).state i = .Eating ↔
      i ≠ who ∧ s.state i = .Eating := by
    intro i
    by_cases hi : i = who
    · simp [hi]
    · simp [hstate hi, hi]
  refine h.change halone (by simp [StateAt]) (fun other hother => ?_) (fun j hj => ?_) (by simp)
    (by simp) (fun j hj => ?_) (by simp) (fun other hother hi => ?_)
  · rw [hstate hother]
    exact h.states other
  · rw [ne_eq, heating, not_and]
    exact fun _ => h.safe j (heating.mp hj).2
  · have hjw : j ≠ who := by
      rintro rfl
      simp at hj
    rw [hstate hjw] at hj
    rcases h.fed_or_pending halone hj with hfed | hpending
    · simp only [Fed, heating, Pending]
      -- a neighbour of his is `who`, whom he is tested for, or still eats
      by_cases hleft : j + 4 = who
      · exact .inr (.inr (add_one_eq.mpr hleft.symm).symm)
      · by_cases hright : j + 1 = who
        · exact .inr (.inl (add_one_eq.mp hright))
        · exact .inl (hfed.imp (⟨hleft, ·⟩) (⟨hright, ·⟩))
    · rw [hpoint] at hpending
      cases hpending
  · rwa [hstate hother] at hi

/-- `state[i] = Eating` of `test`: whoever was hungry was in his `Wait`, or is
the holder himself. -/
theorem eat (h : s.Laid) (halone : ∀ other, other ≠ who → ¬(s.point other).Held) {seat : Seat}
    (hpoint : s.point who = .eat seat) :
    Laid ((s.setState (seat.of who) .Eating).moveTo who (.signal seat)) := by
  obtain ⟨hleft, hhungry, hright⟩ := h.eats who seat hpoint
  generalize hi : seat.of who = i at *
  have hstate : ∀ {j}, j ≠ i → (s.setState i .Eating).state j = s.state j :=
    fun hj => setState_state_of_ne s i _ hj
  have heating : ∀ {j}, (s.setState i .Eating).state j = .Eating ↔
      j = i ∨ s.state j = .Eating := by
    intro j
    by_cases hj : j = i
    · simp [hj]
    · simp [hstate hj, hj]
  have hbefore : ∀ {j}, (s.setState i .Eating).state j = .Hungry →
      j ≠ i ∧ s.state j = .Hungry := by
    intro j hj
    have hji : j ≠ i := by
      rintro rfl
      simp at hj
    exact ⟨hji, hstate hji ▸ hj⟩
  -- the new state of seat `i` changes what the others see of it only: who waits there may eat
  refine h.change halone ?_ (fun other hother => ?_) (fun j hj => ?_) (by simp) ?_
    (fun j hj => ?_) (by simp) (fun other hother hi => (hbefore hi).2)
  · have hat := h.states who
    rw [hpoint] at hat
    cases seat with
    | own =>
        obtain rfl : who = i := hi
        simp [StateAt]
    | left | right =>
        have hne : who ≠ i := by
          rintro rfl
          cases hat.symm.trans hhungry
        rw [hstate hne]
        exact hat
  · by_cases hoi : other = i
    · -- he was hungry without the lock: in his `Wait`, where he may eat as well
      have hat := h.states other
      rw [hoi, hhungry] at hat
      rcases hat.of_hungry with hheld | hwait
      · exact absurd (hoi ▸ hheld) (halone other hother)
      · simp [hoi, hwait, StateAt]
    · rw [hstate hoi]
      exact h.states other
  · rw [ne_eq, heating, not_or]
    rcases heating.mp hj with rfl | hj
    · exact ⟨add_one_ne j, hright⟩
    · refine ⟨fun hji => ?_, h.safe j hj⟩
      rw [add_one_eq.mp hji] at hj
      exact hleft hj
  · rintro seat' hseat
    cases hseat
    rw [hi]
    exact setState_state_self ..
  · obtain ⟨hji, hj⟩ := hbefore hj
    rcases h.fed_or_pending halone hj with hfed | hpending
    · exact .inl (hfed.imp (fun h => heating.mpr (.inr h)) (fun h => heating.mpr (.inr h)))
    · rw [hpoint] at hpending
      rcases hpending.of_eat with hown | hpending
      · exact absurd (hown.trans hi) hji
      · exact .inr hpending

/-- The queues of the conditions are all that counts of the monitor. -/
theorem congr (h : s.Laid) {monitor : Monitor}
    (hconditions : monitor.conditions = s.monitor.conditions) : Laid { s with monitor } := by
  refine ⟨h.states, h.safe, h.eats, h.signals, h.fed, fun who hp hi => ?_⟩
  rw [hconditions]
  exact h.waits who hp hi

/-- Neither in front of a test nor behind one. -/
theorem pass (h : s.Laid) {monitor : Monitor} (hstate : StateAt (s.state who) p)
    (hpending : ∀ i, ¬Pending who (s.point who) i) (heats : ∀ seat, p ≠ .eat seat)
    (hsignals : ∀ seat, p ≠ .signal seat) (hwait : p ≠ .inWait)
    (hconditions : monitor.conditions = s.monitor.conditions) :
    Laid { s.moveTo who p with monitor } :=
  h.move hstate (fun seat hp => absurd hp (heats seat)) (fun seat hp => absurd hp (hsignals seat))
    (fun i _ hi => absurd hi (hpending i)) (fun hp => absurd hp hwait)
    (fun _ _ _ hmem => hconditions ▸ hmem)

/-- The test of a philosopher who may not eat. -/
theorem fails (h : s.Laid) {seat : Seat} (hpoint : s.point who = .test seat)
    (hnot : ¬s.CanEat (seat.of who)) : Laid (s.moveTo who seat.behind) := by
  have hat := h.states who
  rw [hpoint] at hat
  change Laid { s.moveTo who seat.behind with monitor := s.monitor }
  refine h.move ?_ ?_ ?_ (fun i hi hpending => ?_) ?_
    (fun _ _ _ hmem => hmem)
  · cases seat with
    | own =>
        have hhungry : s.state who = .Hungry := hat
        simp [Seat.behind, StateAt, hhungry]
    | left | right => exact hat
  · intro seat' hp
    cases seat <;> cases hp
  · intro seat' hp
    cases seat <;> cases hp
  · rw [hpoint] at hpending
    rcases hpending.of_test with rfl | hpending
    · -- hungry and not allowed to eat: a neighbour does
      left
      simp only [CanEat, hi, true_and, not_and, not_not] at hnot
      by_cases hleft : s.state (seat.of who + 4) = .Eating
      · exact .inl hleft
      · exact .inr (hnot hleft)
    · exact .inr hpending
  · intro hp
    cases seat <;> cases hp

theorem signal (h : s.Laid) {seat : Seat} (hpoint : s.point who = .signal seat)
    (howner : s.monitor.owner = some (thread who)) :
    Laid { s.moveTo who seat.behind with
      monitor := s.monitor.Signal (thread who) (seat.of who) } := by
  have hat := h.states who
  rw [hpoint] at hat
  have heating := h.signals who seat hpoint
  refine h.move ?_ ?_ ?_ (fun i _ hpending => ?_) ?_ (fun other hother hi hmem => ?_)
  · cases seat with
    | own =>
        have hself : s.state who = .Eating := hat
        simp [Seat.behind, StateAt, hself]
    | left | right => exact hat
  · intro seat' hp
    cases seat <;> cases hp
  · intro seat' hp
    cases seat <;> cases hp
  · rw [hpoint] at hpending
    exact .inr hpending.of_signal
  · intro hp
    cases seat <;> cases hp
  · have hne : other.val ≠ (seat.of who).val := by
      intro heq
      rw [← Fin.ext heq, hi] at heating
      cases heating
    rwa [Monitor.conditions_Signal howner, Function.update_of_ne hne]

theorem wait (h : s.Laid) (hpoint : s.point who = .tested) (hhungry : s.state who = .Hungry)
    (howner : s.monitor.owner = some (thread who)) :
    Laid { s.moveTo who .inWait with monitor := s.monitor.Wait (thread who) who } := by
  have hconditions := Monitor.conditions_Wait howner who
  refine h.move (by simp [StateAt, hhungry]) (by simp) (by simp) (fun i _ hpending => ?_)
    (fun _ _ => ?_) (fun other hother _ hmem => ?_)
  · rw [hpoint] at hpending
    cases hpending
  · rw [hconditions, Function.update_self]
    simp
  · have hne : other.val ≠ who.val := fun heq => hother (Fin.ext heq)
    rwa [hconditions, Function.update_of_ne hne]

/-- Who comes back from the `Wait` eats: he has left the queue. -/
theorem eating_of_woken (h : s.Laid) (hm : s.monitor.Sound)
    (hruns : s.monitor.Runs (thread who)) (hpoint : s.point who = .inWait) :
    s.state who = .Eating := by
  have hat := h.states who
  rw [hpoint] at hat
  cases hstate : s.state who with
  | Thinking => exact absurd hstate hat
  | Eating => rfl
  | Hungry =>
      have hasleep := hm.scheduled.mem_condition_iff.mp (h.waits who hpoint hstate)
      cases hruns.2.symm.trans hasleep.1

theorem step (h : s.Laid) (hm : s.monitor.Sound) (hfitting : s.Fitting) {e : Event}
    (hdoes : s.Does e s') : s'.Laid := by
  have howner : ∀ {t}, s.monitor.holding t = true → s.monitor.owner = some t := fun ht =>
    (hm.locked.owner _).mpr ht
  cases hdoes with
  | idle _ _ _ hconditions => exact h.congr hconditions
  | resume => exact h.congr (Monitor.conditions_Acquire ..)
  | @acquire who call hruns hpoint =>
      have hat := h.states who
      have hpending : ∀ i, ¬Pending who (s.point who) i := by
        intro i
        rw [hpoint]
        cases call <;> exact id
      refine h.pass ?_ hpending (by simp) (by simp) (by simp) (Monitor.conditions_Acquire ..)
      rw [hpoint] at hat
      cases call <;> exact hat
  | @hungry who hruns hpoint =>
      have hholding := hfitting.holding_of_runs hruns (.inr ⟨_, hpoint⟩)
      exact h.hungry (fun other hother => hfitting.alone hm hholding hother) hpoint
  | @full who hruns hpoint =>
      have hholding := hfitting.holding_of_runs hruns (.inr ⟨_, hpoint⟩)
      exact h.full (fun other hother => hfitting.alone hm hholding hother) hpoint
  | @passes who seat hruns hpoint heat =>
      -- the test has gone well, nothing is written yet
      have hat := h.states who
      rw [hpoint] at hat
      change Laid { s.moveTo who (.eat seat) with monitor := s.monitor }
      refine h.move ?_ ?_ (by simp) (fun i _ hpending => ?_) (by simp)
        (fun _ _ _ hmem => hmem)
      · cases seat <;> exact hat
      · rintro seat' hseat
        cases hseat
        exact heat
      · rw [hpoint] at hpending
        cases seat <;> exact .inr hpending
  | fails _ hpoint hnot => exact h.fails hpoint hnot
  | @eat who seat hruns hpoint =>
      have hholding : s.monitor.holding (thread who) = true :=
        hfitting.holding (by simp [hpoint, PhPoint.Held])
      exact h.eat (fun other hother => hfitting.alone hm hholding hother) hpoint
  | @signal who seat hruns hpoint =>
      exact h.signal hpoint (howner (hfitting.holding (by simp [hpoint, PhPoint.Held])))
  | @wait who hruns hpoint hstate =>
      exact h.wait hpoint hstate (howner (hfitting.holding (by simp [hpoint, PhPoint.Held])))
  | @skip who hruns hpoint hstate =>
      have hat := h.states who
      rw [hpoint] at hat
      change Laid { s.moveTo who (.finish .pickup) with monitor := s.monitor }
      refine h.pass ?_ (by simp [hpoint, Pending]) (by simp) (by simp)
        (by simp) rfl
      cases hcase : s.state who with
      | Thinking => exact absurd hcase hat
      | Hungry => exact absurd hcase hstate
      | Eating => rfl
  | @release who call hruns hpoint =>
      have hpending : ∀ i, ¬Pending who (s.point who) i := by
        intro i
        rcases hpoint with hpoint | ⟨hpoint, -⟩ <;> simp [hpoint, Pending]
      refine h.pass ?_ hpending (by simp) (by simp) (by simp) (Monitor.conditions_Release ..)
      rcases hpoint with hpoint | ⟨hpoint, rfl⟩
      · have hat := h.states who
        rw [hpoint] at hat
        cases call <;> exact hat
      · exact h.eating_of_woken hm hruns hpoint
  | @leave who call hruns hpoint =>
      have hat := h.states who
      rw [hpoint] at hat
      change Laid { s.moveTo who _ with monitor := s.monitor }
      refine h.pass ?_ (by simp [hpoint, Pending]) ?_ ?_ ?_ rfl
      · cases call <;> exact hat
      · cases call <;> simp
      · cases call <;> simp
      · cases call <;> simp

end Laid

/-- Who eats and stands in the queue of his condition is about to be signalled. -/
def Woken (s : DiningPh) : Prop :=
  ∀ i, s.state i = .Eating → thread i ∈ s.monitor.conditions i →
    ∃ who seat, s.point who = .signal seat ∧ seat.of who = i

namespace Woken

variable {s s' : DiningPh} {who : Fin 5}

/-- A philosopher who is not about to signal goes on, and nobody begins to eat
or joins a queue. -/
theorem keep (h : s.Woken) (hpoint : ∀ seat, s.point who ≠ .signal seat)
    (hothers : ∀ other, other ≠ who → s'.point other = s.point other)
    (heating : ∀ i, s'.state i = .Eating → s.state i = .Eating)
    (hconditions : s'.monitor.conditions = s.monitor.conditions) : s'.Woken := by
  intro i hi hmem
  rw [hconditions] at hmem
  obtain ⟨other, seat, hp, hof⟩ := h i (heating i hi) hmem
  have hne : other ≠ who := by
    rintro rfl
    exact hpoint seat hp
  exact ⟨other, seat, (hothers other hne).trans hp, hof⟩

theorem move (h : s.Woken) (hpoint : ∀ seat, s.point who ≠ .signal seat) (p : PhPoint)
    {monitor : Monitor} (hconditions : monitor.conditions = s.monitor.conditions) :
    Woken { s.moveTo who p with monitor } :=
  h.keep hpoint (fun _ hother => moveTo_point_of_ne s who p hother) (fun _ hi => hi) hconditions

theorem moveTo (h : s.Woken) (hpoint : ∀ seat, s.point who ≠ .signal seat) (p : PhPoint) :
    (s.moveTo who p).Woken :=
  h.move hpoint p rfl

/-- A philosopher becomes hungry, or thinks again. -/
theorem assign (h : s.Woken) (hpoint : ∀ seat, s.point who ≠ .signal seat) (p : PhPoint)
    {st : PhState} (hst : st ≠ .Eating) : ((s.setState who st).moveTo who p).Woken := by
  refine h.keep hpoint (fun _ hother => moveTo_point_of_ne _ who p hother) (fun i hi => ?_) rfl
  by_cases hiw : i = who
  · rw [hiw, moveTo_state, setState_state_self] at hi
    exact absurd hi hst
  · rwa [moveTo_state, setState_state_of_ne _ _ _ hiw] at hi

theorem eat (h : s.Woken) {seat : Seat} (hpoint : s.point who = .eat seat) :
    ((s.setState (seat.of who) .Eating).moveTo who (.signal seat)).Woken := by
  intro i hi hmem
  by_cases hiw : i = seat.of who
  · exact ⟨who, seat, moveTo_point_self .., hiw.symm⟩
  · rw [moveTo_state, setState_state_of_ne _ _ _ hiw] at hi
    obtain ⟨other, seat', hp, hof⟩ := h i hi hmem
    have hne : other ≠ who := by
      rintro rfl
      cases hpoint.symm.trans hp
    exact ⟨other, seat', (moveTo_point_of_ne _ _ _ hne).trans hp, hof⟩

/-- Nobody but the philosopher himself waits for his condition. -/
theorem eq_thread_of_mem (hm : s.monitor.Sound) (hfitting : s.Fitting) {i : Fin 5} {t : Tid}
    (ht : t ∈ s.monitor.conditions i) : t = thread i := by
  have hcall := (hm.scheduled.mem_condition_iff.mp ht).1
  by_cases hwho : ∃ other, t = thread other
  · obtain ⟨other, rfl⟩ := hwho
    have hfits := hfitting.philosopher other
    rw [hcall] at hfits
    rw [Fin.ext hfits.condition_of_asleep]
  · rw [hfitting.elsewhere t (by simpa using hwho)] at hcall
    cases hcall

/-- One signal is enough: there is no second thread in the queue. -/
theorem signal (h : s.Woken) (hm : s.monitor.Sound) (hfitting : s.Fitting) {seat : Seat}
    (hpoint : s.point who = .signal seat) (howner : s.monitor.owner = some (thread who)) :
    Woken { s.moveTo who seat.behind with
      monitor := s.monitor.Signal (thread who) (seat.of who) } := by
  intro i hi hmem
  rw [Monitor.conditions_Signal howner] at hmem
  by_cases hiw : i = seat.of who
  · rw [← hiw, Function.update_self] at hmem
    have hnodup : (s.monitor.conditions i).Nodup :=
      hm.scheduled.placed.nodup (.condition i)
    cases hqueue : s.monitor.conditions i with
    | nil =>
        rw [hqueue] at hmem
        cases hmem
    | cons t rest =>
        have ht : t = thread i := eq_thread_of_mem hm hfitting (by simp [hqueue])
        rw [hqueue, ht] at hnodup
        rw [hqueue] at hmem
        -- `Signal` takes the first of the queue, and nobody is in it twice
        exact absurd hmem (List.nodup_cons.mp hnodup).1
  · have hne : i.val ≠ (seat.of who).val := fun heq => hiw (Fin.ext heq)
    rw [Function.update_of_ne hne] at hmem
    obtain ⟨other, seat', hp, hof⟩ := h i hi hmem
    have hother : other ≠ who := by
      rintro rfl
      cases hpoint.symm.trans hp
      exact hiw hof.symm
    exact ⟨other, seat', (moveTo_point_of_ne _ _ _ hother).trans hp, hof⟩

/-- Who joins the queue is hungry. -/
theorem wait (h : s.Woken) (hpoint : s.point who = .tested) (hhungry : s.state who = .Hungry)
    (howner : s.monitor.owner = some (thread who)) :
    Woken { s.moveTo who .inWait with monitor := s.monitor.Wait (thread who) who } := by
  intro i hi hmem
  have hiw : i ≠ who := by
    rintro rfl
    cases hhungry.symm.trans hi
  have hne : i.val ≠ who.val := fun heq => hiw (Fin.ext heq)
  rw [Monitor.conditions_Wait howner, Function.update_of_ne hne] at hmem
  obtain ⟨other, seat, hp, hof⟩ := h i hi hmem
  have hother : other ≠ who := by
    rintro rfl
    cases hpoint.symm.trans hp
  exact ⟨other, seat, (moveTo_point_of_ne _ _ _ hother).trans hp, hof⟩

theorem start : DiningPh.start.Woken := by
  intro i hi
  cases hi

theorem step (h : s.Woken) (hm : s.monitor.Sound) (hfitting : s.Fitting) {e : Event}
    (hdoes : s.Does e s') : s'.Woken := by
  have howner : ∀ {who}, (s.point who).Held → s.monitor.owner = some (thread who) := fun hp =>
    (hm.locked.owner _).mpr (hfitting.holding hp)
  cases hdoes with
  | idle _ _ _ hconditions =>
      intro i hi hmem
      exact h i hi (hconditions ▸ hmem)
  | resume =>
      intro i hi hmem
      rw [Monitor.conditions_Acquire] at hmem
      exact h i hi hmem
  | @acquire who call hruns hpoint =>
      refine h.move (fun seat hp => ?_) _ (Monitor.conditions_Acquire ..)
      cases call <;> cases hpoint.symm.trans hp
  | @hungry who hruns hpoint | @full who hruns hpoint =>
      exact h.assign (by simp [hpoint]) _ (by simp)
  | @passes who seat hruns hpoint | @fails who seat hruns hpoint | @skip who hruns hpoint
  | @leave who call hruns hpoint =>
      exact h.moveTo (by simp [hpoint]) _
  | eat _ hpoint => exact h.eat hpoint
  | @signal who seat hruns hpoint =>
      exact h.signal hm hfitting hpoint (howner (by simp [hpoint, PhPoint.Held]))
  | @wait who hruns hpoint hstate =>
      exact h.wait hpoint hstate (howner (by simp [hpoint, PhPoint.Held]))
  | @release who call hruns hpoint =>
      refine h.move (fun seat hp => ?_) _ (Monitor.conditions_Release ..)
      rcases hpoint with hpoint | ⟨hpoint, -⟩ <;> cases hpoint.symm.trans hp

end Woken

/-- The invariants together. -/
structure Sound (s : DiningPh) : Prop where
  monitor : s.monitor.Sound
  alive : s.monitor.failed = false
  fitting : s.Fitting
  laid : s.Laid
  woken : s.Woken

/-- Neighbours do not eat together. As long as nobody holds the lock, who is
hungry is in his `Wait`, with a neighbour that eats, and nobody else sleeps in
one. And whoever comes back from `pickup` eats. -/
structure Mannerly (s : DiningPh) : Prop where
  safe : ∀ who, s.state who = .Eating → s.state (who + 1) ≠ .Eating
  hungry : (∀ t, s.monitor.holding t = false) → ∀ who, s.state who = .Hungry →
    s.monitor.InsideWait (thread who) who ∧ s.Fed who
  asleep : (∀ t, s.monitor.holding t = false) → ∀ who,
    s.monitor.Asleep (thread who) who → s.state who = .Hungry
  returns : ∀ who s', s.point who = .inRelease .pickup → s.step (.advance who) = some s' →
    s'.point who = .eating ∧ s'.state who = .Eating

namespace Sound

variable {s s' : DiningPh} {who : Fin 5}

theorem start : DiningPh.start.Sound :=
  ⟨.start, rfl, .start, .start, .start⟩

/-- No `ASSERT` fails: whoever comes to a `Release` holds the lock. -/
theorem monitor_step (h : s.Sound) {e : Event} (hstep : s.step e = some s') :
    s'.monitor.Sound ∧ s'.monitor.failed = false := by
  rcases monitor_of_step hstep with hsame | ⟨e', hmonitor, hrelease⟩
  · rw [hsame]
    exact ⟨h.monitor, h.alive⟩
  · refine ⟨h.monitor.step hmonitor, h.monitor.alive_of_release hmonitor fun t he hruns => ?_⟩
    obtain ⟨who, rfl, hpoint⟩ := hrelease t he
    rcases hpoint with hpoint | ⟨call, hpoint⟩
    · exact h.fitting.holding_of_runs hruns (.inl hpoint)
    · exact h.fitting.holding (by simp [hpoint, PhPoint.Held])

theorem step (h : s.Sound) {e : Event} (hstep : s.step e = some s') : s'.Sound := by
  have hdoes := does_of_step hstep
  obtain ⟨hmonitor, halive⟩ := h.monitor_step hstep
  exact ⟨hmonitor, halive, h.fitting.step h.monitor hdoes,
    h.laid.step h.monitor h.fitting hdoes, h.woken.step h.monitor h.fitting hdoes⟩

theorem of_exec {events : List Event} (hrun : exec DiningPh.step DiningPh.start events = some s) :
    s.Sound :=
  exec_induction (fun h hstep => step h hstep) start hrun

/-- While the lock is free, nobody is at a place of its holder. -/
theorem not_held (h : s.Sound) (hfree : ∀ t, s.monitor.holding t = false) :
    ¬(s.point who).Held := by
  intro hheld
  have hholding := h.fitting.holding hheld
  rw [hfree] at hholding
  cases hholding

theorem hungry (h : s.Sound) (hfree : ∀ t, s.monitor.holding t = false)
    (hstate : s.state who = .Hungry) : s.monitor.InsideWait (thread who) who ∧ s.Fed who := by
  have hat := h.laid.states who
  rw [hstate] at hat
  constructor
  · rcases hat.of_hungry with hheld | hwait
    · exact absurd hheld (h.not_held hfree)
    · have hfits := h.fitting.philosopher who
      rw [hfree, hwait] at hfits
      exact hfits.insideWait
  · rcases h.laid.fed who hstate with hfed | ⟨other, hpending⟩
    · exact hfed
    · exact absurd hpending.held (h.not_held hfree)

theorem asleep (h : s.Sound) (hfree : ∀ t, s.monitor.holding t = false)
    (hasleep : s.monitor.Asleep (thread who) who) : s.state who = .Hungry := by
  have hmem := h.monitor.scheduled.mem_condition_iff.mpr hasleep
  have hat := h.laid.states who
  have hfits := h.fitting.philosopher who
  rw [hasleep.1] at hfits
  rw [hfits.point_of_asleep] at hat
  cases hstate : s.state who with
  | Thinking => exact absurd hstate hat
  | Hungry => rfl
  | Eating =>
      -- somebody is about to signal him, with the lock
      obtain ⟨other, seat, hpoint, -⟩ := h.woken who hstate hmem
      exact absurd (hpoint ▸ trivial : (s.point other).Held) (h.not_held hfree)

theorem returns (h : s.Sound) (hpoint : s.point who = .inRelease .pickup)
    (hstep : s.step (.advance who) = some s') :
    s'.point who = .eating ∧ s'.state who = .Eating := by
  have hat := h.laid.states who
  rw [hpoint] at hat
  simp only [DiningPh.step, advance, hpoint] at hstep
  obtain ⟨-, hs'⟩ := Option.ite_none_right_eq_some.mp hstep
  cases hs'
  exact ⟨moveTo_point_self .., hat⟩

/-- A philosopher who has the CPU can go on. -/
theorem goes_on (h : s.Sound) (ht : s.monitor.scheduler.currentThread = some (thread who)) :
    ∃ e ∈ [.resume (thread who), .advance who], (DiningPh.step s e).isSome := by
  have halive := h.alive
  cases hcall : s.monitor.callPoint (thread who) with
  | inP wait =>
      exact ⟨.resume (thread who), by simp, by simp [DiningPh.step, perform, Monitor.step, *]⟩
  | inWait c =>
      exact ⟨.resume (thread who), by simp, by simp [DiningPh.step, perform, Monitor.step, *]⟩
  | outside =>
      have hruns : s.monitor.Runs (thread who) := ⟨ht, hcall⟩
      have hholding : (s.point who).Held → s.monitor.holding (thread who) = true :=
        h.fitting.holding
      refine ⟨.advance who, by simp, ?_⟩
      cases hp : s.point who with
      | thinking | eating | inWait | finish =>
          simp [DiningPh.step, advance, perform, Monitor.step, *]
      | test | eat => simp [DiningPh.step, advance, assign, *]
      | inAcquire call | inRelease call =>
          cases call <;> simp [DiningPh.step, advance, assign, *]
      | signal seat =>
          have hheld := hholding (by simp [hp, PhPoint.Held])
          simp [DiningPh.step, advance, perform, Monitor.step, *]
      | tested =>
          have hheld := hholding (by simp [hp, PhPoint.Held])
          by_cases hhungry : s.state who = .Hungry
          · simp [DiningPh.step, advance, perform, Monitor.step, *]
          · simp [DiningPh.step, advance, assign, *]

theorem mannerly (h : s.Sound) : s.Mannerly :=
  ⟨h.laid.safe, fun hfree _ hstate => h.hungry hfree hstate,
    fun hfree _ hasleep => h.asleep hfree hasleep,
    fun _ _ hpoint hstep => h.returns hpoint hstep⟩

end Sound

/-- **The dining philosophers**: safe, and without a lost wake-up, in whatever
order the threads get the CPU. -/
theorem mannerly_of_exec {events : List Event} {s : DiningPh}
    (hrun : exec step start events = some s) : s.Mannerly :=
  (Sound.of_exec hrun).mannerly

/-- Philosopher 1 waits for 0, who lets him eat when he puts his forks down. -/
def contended : List Event :=
  List.flatten [[.ready 1, .ready 2, .yield 0], .replicate 8 (.advance 0), [.yield 1],
    .replicate 4 (.advance 1), [.dispatch, .yield 0], .replicate 8 (.advance 0),
    [.yield 1, .yield 0, .resume 2], .replicate 2 (.advance 1)]

theorem mannerly_contended :
    ∃ s, exec step start contended = some s ∧ s.state 1 = .Eating ∧ s.Mannerly := by
  have hstate : (exec step start contended).map (fun s => s.state 1) = some .Eating := rfl
  obtain ⟨s, hrun, hstate⟩ := Option.map_eq_some_iff.mp hstate
  exact ⟨s, hrun, hstate, mannerly_of_exec hrun⟩

end DiningPh

end DistributedAscii.NachOS
