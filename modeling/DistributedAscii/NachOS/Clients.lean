import DistributedAscii.NachOS.Awake

/-!
# NachOS — programs that use a lock

A program whose threads go from place to place, and at each place are in one
operation of the monitor or in none. `Fits` is the program's own table of
that; that every thread keeps to the table (`Fitting`), and that nobody sleeps
but in an operation (`Attentive`), is kept by the operations in the same way
for every program.
-/

namespace DistributedAscii.NachOS.Monitor

variable {π : Type*} {Fits : π → CallPoint → Bool → Prop} {point : Tid → π} {m m' : Monitor}
  {t : Tid} {p : π} {e : Event}

/-- What goes on around the program: the scheduler, the threads that are not
in it, and operations that a thread has called. -/
inductive Background (Outside : Tid → Prop) : Event → Prop where
  | dispatch : Background Outside .dispatch
  | ready {u : Tid} (hout : Outside u) : Background Outside (.ready u)
  | yield {u : Tid} : Background Outside (.yield u)
  | sleep {u : Tid} (hout : Outside u) : Background Outside (.sleep u)
  | resume {u : Tid} : Background Outside (.resume u)

theorem Background.conditions {Outside : Tid → Prop} (h : Background Outside e)
    (hdoes : m.Does e m') : m'.conditions = m.conditions := by
  cases h with
  | dispatch | ready | yield | sleep =>
      cases hdoes
      rfl
  | resume =>
      cases hdoes
      exact conditions_Acquire ..

/-- A thread that goes on in an operation does not hold the lock, and either
gets it or sleeps again. -/
def Resumable (Fits : π → CallPoint → Bool → Prop) : Prop :=
  ∀ {p c b wait}, Fits p c b → (c = .inP wait ∨ ∃ d, wait = some d ∧ c = .inWait d) →
    b = false ∧ Fits p (.inP wait) false ∧ Fits p .outside true

/-- Every thread is in the operation that its place tells, and holds the lock
or does not as the place tells. -/
def Fitting (Fits : π → CallPoint → Bool → Prop) (point : Tid → π) (m : Monitor) : Prop :=
  ∀ t, Fits (point t) (m.callPoint t) (m.holding t)

namespace Fitting

/-- Only thread `t` has moved, or its operation. -/
theorem update (h : Fitting Fits point m) (hself : Fits p (m'.callPoint t) (m'.holding t))
    (hmoves : m.Moves t m') : Fitting Fits (Function.update point t p) m' := by
  intro u
  by_cases hu : u = t
  · subst hu
    rwa [Function.update_self]
  · rw [Function.update_of_ne hu, hmoves.callPoint u hu, hmoves.holding u hu]
    exact h u

/-- A statement of the program. -/
theorem moveTo (h : Fitting Fits point m) (hself : Fits p (m.callPoint t) (m.holding t)) :
    Fitting Fits (Function.update point t p) m :=
  h.update hself (.refl _ _)

/-- What the scheduler does. -/
theorem idle (h : Fitting Fits point m) (hcall : m'.callPoint = m.callPoint)
    (hholding : m'.holding = m.holding) : Fitting Fits point m' := by
  intro t
  rw [hcall, hholding]
  exact h t

/-- The test of the lock's `P`. -/
theorem acquire (h : Fitting Fits point m) {wait : Option Nat} (hholding : m.holding t = false)
    (hasleep : Fits p (.inP wait) false) (hthrough : Fits p .outside true) :
    Fitting Fits (Function.update point t p) (m.Acquire t wait) := by
  refine h.update ?_ (m.Acquire_moves t wait)
  by_cases hzero : m.semaphore.value = 0
  · rw [Acquire_asleep hzero]
    simpa [hholding] using hasleep
  · rw [Acquire_through hzero]
    simpa using hthrough

theorem release (h : Fitting Fits point m) (howner : m.owner = some t)
    (hcall : m.callPoint t = .outside) (hp : Fits p .outside false) :
    Fitting Fits (Function.update point t p) (m.Release t) := by
  refine h.update ?_ (Release_moves howner)
  rw [Release, if_pos howner]
  simpa [V, hcall] using hp

theorem wait (h : Fitting Fits point m) {c : Nat} (howner : m.owner = some t)
    (hp : Fits p (.inWait c) false) : Fitting Fits (Function.update point t p) (m.Wait t c) := by
  refine h.update ?_ (Wait_moves howner c)
  rw [Wait, if_pos howner, Release, if_pos howner]
  simpa [enqueue, V] using hp

theorem background (h : Fitting Fits point m) (hresumable : Resumable Fits) {Outside : Tid → Prop}
    (hbackground : Background Outside e) (hdoes : m.Does e m') : Fitting Fits point m' := by
  cases hbackground with
  | dispatch | ready | yield | sleep =>
      cases hdoes
      exact h.idle rfl rfl
  | @resume t =>
      cases hdoes with
      | resume hcurrent hwait =>
          obtain ⟨hholding, hasleep, hthrough⟩ := hresumable (h t) hwait
          have hself := h.acquire hholding hasleep hthrough
          rwa [Function.update_eq_self] at hself

end Fitting

/-- Who is inside and in no operation is awake, or `aside`. -/
def Attentive (Inside : π → Prop) (point : Tid → π) (m : Monitor) (aside : List Tid) : Prop :=
  ∀ t, Inside (point t) → m.callPoint t = .outside → m.Awake t ∨ t ∈ aside

namespace Attentive

variable {Inside : π → Prop} {aside : List Tid}

/-- A thread goes on, awake, to another place; the others stay. -/
theorem moveTo (h : Attentive Inside point m aside) (hawake : m.Awake t) :
    Attentive Inside (Function.update point t p) m aside := by
  intro u hinside hcall
  by_cases hu : u = t
  · subst hu
    exact .inl hawake
  · rw [Function.update_of_ne hu] at hinside
    exact h u hinside hcall

/-- **An operation**, in which nobody inside falls asleep elsewhere. -/
theorem operate (h : Attentive Inside point m aside) (hm : m.Sound) (hdoes : m.Does e m')
    (hsleep : ∀ t, e = .sleep t → ¬Inside (point t)) : Attentive Inside point m' aside := by
  intro t hinside hcall
  by_cases hbefore : m.callPoint t = .outside
  · refine (h t hinside hbefore).imp_left fun hawake => hawake.step hdoes ?_ hcall
    rintro rfl
    exact hsleep t rfl hinside
  · exact .inl (hm.scheduled.awake_of_out hdoes hbefore hcall)

theorem background (h : Attentive Inside point m aside) (hm : m.Sound)
    (hbackground : Background (fun t => ¬Inside (point t)) e) (hdoes : m.Does e m') :
    Attentive Inside point m' aside := by
  refine h.operate hm hdoes fun t he => ?_
  subst he
  cases hbackground with
  | sleep hout => exact hout

/-- A thread that calls an operation, from inside or from outside. -/
theorem call (h : Attentive Inside point m aside) (hm : m.Sound) (hdoes : m.Does e m')
    (hruns : m.Runs t) (hsleep : ∀ u, e ≠ .sleep u) :
    Attentive Inside (Function.update point t p) m' aside := by
  intro u hinside hcall
  by_cases hu : u = t
  · subst hu
    have hawake : m.Awake u := .inr (hm.scheduled.status_of_current hruns.1)
    exact .inl (hawake.step hdoes (hsleep u) hcall)
  · rw [Function.update_of_ne hu] at hinside
    exact h.operate hm hdoes (fun v he => absurd he (hsleep v)) u hinside hcall

end Attentive

/-- **At rest**, with nobody aside, who is inside sleeps in a condition, and
nobody holds the lock. -/
theorem AtRest.inside (h : m.AtRest) (hm : m.Sound) (hwakeful : m.Wakeful) {Inside : π → Prop}
    (hattentive : Attentive Inside point m [])
    (hholding : ∀ t, m.holding t = true → Inside (point t) ∧ m.callPoint t = .outside)
    (t : Tid) (hinside : Inside (point t)) : ∃ c, t ∈ m.conditions c := by
  have hin : ∀ u, Inside (point u) → m.callPoint u ≠ .outside := by
    intro u hu hcall
    rcases hattentive u hu hcall with hawake | hmem
    · exact h.not_awake hm.scheduled u hawake
    · cases hmem
  have hfree : m.owner = none := by
    cases howner : m.owner with
    | none => rfl
    | some u =>
        obtain ⟨hu, hcall⟩ := hholding u ((hm.locked.owner u).mp howner)
        exact absurd hcall (hin u hu)
  cases hcall : m.callPoint t with
  | outside => exact absurd hcall (hin t hinside)
  | inP wait => exact absurd hcall (h.not_inP hm.scheduled hwakeful hfree wait)
  | inWait c =>
      refine ⟨c, hm.scheduled.mem_condition_iff.mpr ⟨hcall, ?_⟩⟩
      exact h.blocked hm.scheduled hwakeful (hin t hinside)

end DistributedAscii.NachOS.Monitor
