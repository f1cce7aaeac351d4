import DistributedAscii.NachOS.Mesa

/-!
# NachOS — who is awake

A thread that is in no operation of the monitor and does not fall asleep on
its own stays on the CPU or in the list of the ready ones. The lock forgets
nobody: as long as threads stand in its queue, somebody holds it or is on the
way to it (`Contended`), so that the CPU does not come to rest with a free
lock and a thread that wants it.
-/

namespace DistributedAscii.NachOS.Monitor

variable {s s' : Monitor} {t u : Tid} {e : Event}

/-- On the CPU, or ready for it. -/
def Awake (s : Monitor) (t : Tid) : Prop :=
  s.scheduler.status t = .READY ∨ s.scheduler.status t = .RUNNING

/-- The CPU is idle, and nobody is ready. -/
def AtRest (s : Monitor) : Prop :=
  s.scheduler.currentThread = none ∧ s.scheduler.readyList = []

theorem AtRest.not_awake (h : s.AtRest) (hs : s.Scheduled) (t : Tid) : ¬s.Awake t := by
  intro hawake
  rcases hawake with hready | hrunning
  · have hmem := hs.mem_ready_iff.mpr hready
    rw [h.2] at hmem
    cases hmem
  · have hcurrent := (hs.running t).mpr hrunning
    rw [h.1] at hcurrent
    cases hcurrent

/-! ## One step of a thread -/

section Status

variable {scheduler : Scheduler}

theorem status_Yield (h : scheduler.status t = .READY ∨ scheduler.status t = .RUNNING) (u : Tid) :
    (scheduler.Yield u).status t = .READY ∨ (scheduler.Yield u).status t = .RUNNING := by
  unfold Scheduler.Yield
  split
  · exact h
  · rename_i next rest _
    by_cases hnext : t = next
    · simp [Scheduler.Run, hnext]
    · by_cases hu : t = u
      · simp [Scheduler.Run, Scheduler.ReadyToRun, hu ▸ hnext, hu]
      · simpa [Scheduler.Run, Scheduler.ReadyToRun, hnext, hu] using h

theorem status_ReadyToRun (h : scheduler.status t = .READY ∨ scheduler.status t = .RUNNING)
    (u : Tid) : (scheduler.ReadyToRun u).status t = .READY ∨
      (scheduler.ReadyToRun u).status t = .RUNNING := by
  by_cases hu : t = u
  · simp [Scheduler.ReadyToRun, hu]
  · simpa [Scheduler.ReadyToRun, hu] using h

theorem status_Sleep (h : scheduler.status t = .BLOCKED) (u : Tid) :
    (scheduler.Sleep u).status t = .BLOCKED := by
  by_cases hu : t = u
  · simp [Scheduler.Sleep, hu]
  · simpa [Scheduler.Sleep, hu] using h

end Status

theorem Awake.wake (h : s.Awake t) (thread : Option Tid) :
    (s.scheduler.wake thread).status t = .READY ∨
      (s.scheduler.wake thread).status t = .RUNNING := by
  cases thread with
  | none => exact h
  | some u => exact status_ReadyToRun h u

theorem Awake.release (h : s.Awake t) (u : Tid) : (s.Release u).Awake t := by
  unfold Release
  split
  · exact h.wake _
  · exact h

/-- **Nobody else puts a thread to sleep.** -/
theorem Awake.step (h : s.Awake t) (hdoes : s.Does e s') (hsleep : e ≠ .sleep t)
    (hout : s'.callPoint t = .outside) : s'.Awake t := by
  have hacquire : ∀ {u wait}, (s.Acquire u wait).callPoint t = .outside →
      (s.Acquire u wait).Awake t := by
    intro u wait hcall
    by_cases hzero : s.semaphore.value = 0
    · rw [Acquire_asleep hzero] at hcall ⊢
      by_cases hu : t = u
      · simp [hu] at hcall
      · simpa [Awake, Scheduler.Sleep, hu] using h
    · rw [Acquire_through hzero]
      exact h
  cases hdoes with
  | @dispatch next rest hidle hready =>
      by_cases hnext : t = next
      · simp [Awake, Scheduler.Run, hnext]
      · simpa [Awake, Scheduler.Run, hnext] using h
  | @ready u haway => exact status_ReadyToRun h u
  | @yield u hruns => exact status_Yield h u
  | @sleep u hruns =>
      have hu : t ≠ u := by
        rintro rfl
        exact hsleep rfl
      simpa [Awake, Scheduler.Sleep, hu] using h
  | acquire => exact hacquire hout
  | resume => exact hacquire hout
  | release => exact h.release _
  | @wait u c hruns hholding =>
      unfold Wait at hout ⊢
      split at hout
      · rename_i howner
        rw [if_pos howner]
        by_cases hu : t = u
        · simp [enqueue, hu] at hout
        · have hreleased := h.release u
          simpa [Awake, enqueue, Scheduler.Sleep, hu] using hreleased
      · rename_i howner
        rw [if_neg howner]
        exact h
  | @signal u c hruns hholding =>
      unfold Signal
      split
      · exact h.wake _
      · exact h
  | @broadcast u c hruns hholding =>
      unfold Broadcast
      split
      · simp only [Awake, Scheduler.status_wakeAll]
        split
        · exact .inl rfl
        · exact h
      · exact h

/-- Who gets out of an operation of the monitor has the CPU. -/
theorem Scheduled.awake_of_out (h : s.Scheduled) (hdoes : s.Does e s')
    (hin : s.callPoint t ≠ .outside) (hout : s'.callPoint t = .outside) : s'.Awake t := by
  cases hdoes with
  | dispatch | ready | yield | sleep => exact absurd hout hin
  | release => exact absurd (by rwa [callPoint_Release] at hout) hin
  | signal => exact absurd (by rwa [callPoint_Signal] at hout) hin
  | broadcast => exact absurd (by rwa [callPoint_Broadcast] at hout) hin
  | @wait u c hruns =>
      have hu : t ≠ u := by
        rintro rfl
        exact hin hruns.2
      exact absurd (by rwa [callPoint_Wait_of_ne _ _ hu] at hout) hin
  | @acquire u hruns =>
      have hu : t ≠ u := by
        rintro rfl
        exact hin hruns.2
      exact absurd (by rwa [callPoint_Acquire_of_ne _ hu] at hout) hin
  | @resume u wait hcurrent hwait =>
      by_cases hu : t = u
      · subst hu
        by_cases hzero : s.semaphore.value = 0
        · rw [Acquire_asleep hzero] at hout
          simp at hout
        · rw [Acquire_through hzero]
          exact .inr (h.status_of_current hcurrent)
      · exact absurd (by rwa [callPoint_Acquire_of_ne _ hu] at hout) hin

/-- **Who sleeps elsewhere** sleeps on, unless it is made ready from there. -/
theorem Scheduled.blocked_step (h : s.Scheduled) (hdoes : s.Does e s')
    (hcall : s.callPoint t = .outside) (hblocked : s.scheduler.status t = .BLOCKED)
    (hready : e ≠ .ready t) : s'.scheduler.status t = .BLOCKED := by
  have hruns : ∀ {u}, s.scheduler.currentThread = some u → t ≠ u := by
    rintro u hu rfl
    cases hblocked.symm.trans (h.status_of_current hu)
  have hlist : ∀ {next rest}, s.scheduler.readyList = next :: rest → t ≠ next := by
    rintro next rest hnext rfl
    cases hblocked.symm.trans (h.mem_ready_iff.mp (hnext ▸ List.mem_cons_self))
  -- in none of the queues that the operations of the monitor wake from
  have hlock : s.semaphore.queue.head? ≠ some t := by
    intro hhead
    obtain ⟨-, wait, hwait⟩ := h.status_of_mem_semaphore (List.mem_of_mem_head? hhead)
    cases hcall.symm.trans hwait
  have hcondition : ∀ c, t ∉ s.conditions c := by
    intro c hmem
    cases hcall.symm.trans (h.mem_condition_iff.mp hmem).1
  have hrelease : ∀ u, (s.Release u).scheduler.status t = .BLOCKED := by
    intro u
    unfold Release
    split
    · refine (Scheduler.status_wake s.scheduler s.semaphore.queue.head? t).trans ?_
      rw [if_neg hlock, hblocked]
    · exact hblocked
  have hacquire : ∀ {u} wait, s.scheduler.currentThread = some u →
      (s.Acquire u wait).scheduler.status t = .BLOCKED := by
    intro u wait _
    by_cases hzero : s.semaphore.value = 0
    · rw [Acquire_asleep hzero]
      exact status_Sleep hblocked u
    · rwa [Acquire_through hzero]
  cases hdoes with
  | dispatch hidle hnext => simp [Scheduler.Run, hlist hnext, hblocked]
  | @ready u haway =>
      have hu : t ≠ u := by
        rintro rfl
        exact hready rfl
      simp [Scheduler.ReadyToRun, hu, hblocked]
  | @yield u hu =>
      unfold Scheduler.Yield
      split
      · exact hblocked
      · rename_i hnext
        simp [Scheduler.Run, Scheduler.ReadyToRun, hlist hnext, hruns hu.1, hblocked]
  | sleep => exact status_Sleep hblocked _
  | acquire hu => exact hacquire _ hu.1
  | resume hu => exact hacquire _ hu
  | release => exact hrelease _
  | @wait u c =>
      unfold Wait
      split
      · exact status_Sleep (hrelease u) u
      · exact hblocked
  | @signal u c =>
      unfold Signal
      split
      · have hhead : (s.conditions c).head? ≠ some t := fun hhead =>
          hcondition c (List.mem_of_mem_head? hhead)
        exact (Scheduler.status_wake ..).trans (by rw [if_neg hhead, hblocked])
      · exact hblocked
  | @broadcast u c =>
      unfold Broadcast
      split
      · simp only [Scheduler.status_wakeAll]
        rw [if_neg (hcondition c), hblocked]
      · exact hblocked

/-! ## The lock -/

/-- While threads stand in the queue of the lock, somebody holds it or is at
the test of its `P` and awake. -/
def Contended (s : Monitor) : Prop :=
  s.semaphore.queue ≠ [] → s.owner = none → ∃ t wait, s.callPoint t = .inP wait ∧ s.Awake t

namespace Contended

theorem start : Monitor.start.Contended := fun hqueue => absurd rfl hqueue

/-- The lock and its queue stay, and so does who is on the way to it. -/
theorem keep (h : s.Contended) (hqueue : s'.semaphore.queue = s.semaphore.queue)
    (howner : s'.owner = s.owner) (hcall : ∀ t wait, s.callPoint t = .inP wait →
      s.Awake t → s'.callPoint t = .inP wait ∧ s'.Awake t) : s'.Contended := by
  intro hne hnone
  rw [hqueue] at hne
  rw [howner] at hnone
  obtain ⟨t, wait, hpoint, hawake⟩ := h hne hnone
  exact ⟨t, wait, hcall t wait hpoint hawake⟩

theorem held (howner : s.owner = some t) : s.Contended := by
  intro _ hnone
  rw [howner] at hnone
  cases hnone

/-- The first of the queue is woken. -/
theorem release (hs : s.Scheduled) (howner : s.owner = some t) : (s.Release t).Contended := by
  rw [Release, if_pos howner]
  intro hne _
  simp only [V, Semaphore.V] at hne
  cases hqueue : s.semaphore.queue with
  | nil =>
      rw [hqueue] at hne
      exact absurd rfl hne
  | cons u rest =>
      obtain ⟨-, wait, hwait⟩ := hs.status_of_mem_semaphore (hqueue ▸ List.mem_cons_self)
      refine ⟨u, wait, hwait, .inl ?_⟩
      simp [V, Semaphore.V, hqueue, Scheduler.wake, Scheduler.ReadyToRun]

theorem acquire (hlocked : s.Locked) (t : Tid) (wait : Option Nat) :
    (s.Acquire t wait).Contended := by
  by_cases hzero : s.semaphore.value = 0
  · rw [Acquire_asleep hzero]
    intro _ hnone
    have hvalue := hlocked.value
    rw [if_pos hnone, hzero] at hvalue
    cases hvalue
  · rw [Acquire_through hzero]
    exact held rfl

theorem step (h : s.Contended) (hsound : s.Sound) (hdoes : s.Does e s') : s'.Contended := by
  have howner : ∀ {t}, s.holding t = true → s.owner = some t := fun ht =>
    (hsound.locked.owner _).mpr ht
  cases hdoes with
  | @dispatch next rest hidle hready =>
      refine h.keep rfl rfl fun t wait hpoint hawake => ⟨hpoint, ?_⟩
      by_cases hnext : t = next
      · simp [Awake, Scheduler.Run, hnext]
      · simpa [Awake, Scheduler.Run, hnext] using hawake
  | @ready u haway => exact h.keep rfl rfl fun t wait hpoint hawake =>
      ⟨hpoint, status_ReadyToRun hawake u⟩
  | @yield u hruns => exact h.keep rfl rfl fun t wait hpoint hawake =>
      ⟨hpoint, status_Yield hawake u⟩
  | @sleep u hruns =>
      refine h.keep rfl rfl fun t wait hpoint hawake => ⟨hpoint, ?_⟩
      have hu : t ≠ u := by
        rintro rfl
        cases hruns.2.symm.trans hpoint
      simpa [Awake, Scheduler.Sleep, hu] using hawake
  | acquire => exact acquire hsound.locked _ _
  | resume => exact acquire hsound.locked _ _
  | @release u hruns =>
      -- only the owner lets go; then the head of the queue is awake at the test of its `P`
      by_cases hu : s.owner = some u
      · exact release hsound.scheduled hu
      · rw [Release, if_neg hu]
        exact h.keep rfl rfl fun t wait hpoint hawake => ⟨hpoint, hawake⟩
  | @wait u c hruns hholding =>
      rw [Wait, if_pos (howner hholding)]
      have hreleased := release hsound.scheduled (howner hholding)
      refine hreleased.keep rfl rfl fun t wait hpoint hawake => ?_
      have hu : t ≠ u := by
        rintro rfl
        rw [callPoint_Release] at hpoint
        cases hruns.2.symm.trans hpoint
      refine ⟨?_, ?_⟩
      · simpa [enqueue, hu] using hpoint
      · simpa [Awake, enqueue, Scheduler.Sleep, hu] using hawake
  | signal _ hholding =>
      rw [Signal, if_pos (howner hholding)]
      exact held (howner hholding)
  | broadcast _ hholding =>
      rw [Broadcast, if_pos (howner hholding)]
      exact held (howner hholding)

end Contended

/-- A thread that has run is no longer new. -/
theorem status_ne_created (hdoes : s.Does e s') (h : s.scheduler.status t ≠ .JUST_CREATED) :
    s'.scheduler.status t ≠ .JUST_CREATED := by
  have hupdate : ∀ {status : Tid → ThreadStatus} {u : Tid} {st : ThreadStatus},
      status t ≠ .JUST_CREATED → st ≠ .JUST_CREATED →
        Function.update status u st t ≠ .JUST_CREATED := by
    intro status u st hstatus hst
    by_cases hu : t = u
    · subst hu
      rwa [Function.update_self]
    · rwa [Function.update_of_ne hu]
  have hwake : ∀ thread, (s.scheduler.wake thread).status t ≠ .JUST_CREATED := by
    intro thread
    cases thread with
    | none => exact h
    | some u => exact hupdate h (by simp)
  have hrelease : ∀ u, (s.Release u).scheduler.status t ≠ .JUST_CREATED := by
    intro u
    unfold Release
    split
    · exact hwake _
    · exact h
  have hacquire : ∀ u wait, (s.Acquire u wait).scheduler.status t ≠ .JUST_CREATED := by
    intro u wait
    by_cases hzero : s.semaphore.value = 0
    · rw [Acquire_asleep hzero]
      exact hupdate h (by simp)
    · rwa [Acquire_through hzero]
  cases hdoes with
  | dispatch => exact hupdate h (by simp)
  | ready => exact hupdate h (by simp)
  | yield =>
      unfold Scheduler.Yield
      split
      · exact h
      · exact hupdate (hupdate h (by simp)) (by simp)
  | sleep => exact hupdate h (by simp)
  | acquire => exact hacquire _ _
  | resume => exact hacquire _ _
  | release => exact hrelease _
  | wait =>
      unfold Wait
      split
      · exact hupdate (hrelease _) (by simp)
      · exact h
  | signal =>
      unfold Signal
      split
      · exact hwake _
      · exact h
  | broadcast =>
      unfold Broadcast
      split
      · simp only [Scheduler.status_wakeAll]
        split
        · simp
        · exact h
      · exact h

/-- The lock forgets nobody, and who is in an operation has run. -/
structure Wakeful (s : Monitor) : Prop where
  contended : s.Contended
  begun : ∀ t, s.callPoint t ≠ .outside → s.scheduler.status t ≠ .JUST_CREATED

namespace Wakeful

theorem start : Monitor.start.Wakeful where
  contended := .start
  begun _ h := absurd rfl h

theorem step (h : s.Wakeful) (hsound : s.Sound) (hdoes : s.Does e s') : s'.Wakeful where
  contended := h.contended.step hsound hdoes
  begun t hcall := by
    refine status_ne_created hdoes fun hcreated => ?_
    have hout : s.callPoint t = .outside := by
      by_contra hin
      exact h.begun t hin hcreated
    have hruns : ∀ {u}, s.scheduler.currentThread = some u → t ≠ u := by
      rintro u hu rfl
      cases hcreated.symm.trans (hsound.scheduled.status_of_current hu)
    cases hdoes with
    | dispatch | ready | yield | sleep => exact hcall hout
    | release => exact hcall (by rwa [callPoint_Release])
    | signal => exact hcall (by rwa [callPoint_Signal])
    | broadcast => exact hcall (by rwa [callPoint_Broadcast])
    | acquire hu => exact hcall (by rwa [callPoint_Acquire_of_ne _ (hruns hu.1)])
    | resume hu => exact hcall (by rwa [callPoint_Acquire_of_ne _ (hruns hu)])
    | wait hu => exact hcall (by rwa [callPoint_Wait_of_ne _ _ (hruns hu.1)])

end Wakeful

/-- At rest, who is in an operation sleeps there. -/
theorem AtRest.blocked (h : s.AtRest) (hs : s.Scheduled) (hwakeful : s.Wakeful)
    (hcall : s.callPoint t ≠ .outside) : s.scheduler.status t = .BLOCKED := by
  have hbegun := hwakeful.begun t hcall
  have hawake := h.not_awake hs t
  rw [Awake, not_or] at hawake
  cases hst : s.scheduler.status t with
  | JUST_CREATED => exact absurd hst hbegun
  | RUNNING => exact absurd hst hawake.2
  | READY => exact absurd hst hawake.1
  | BLOCKED => rfl

/-- **At rest nobody waits for a free lock.** -/
theorem AtRest.not_inP (h : s.AtRest) (hs : s.Scheduled) (hwakeful : s.Wakeful)
    (hfree : s.owner = none) (wait : Option Nat) : s.callPoint t ≠ .inP wait := by
  intro hpoint
  have hmem : t ∈ s.semaphore.queue := by
    refine (hs.placed.mem_iff .semaphore t).mpr ?_
    rw [place, h.blocked hs hwakeful (by simp [hpoint]), hpoint]
    rfl
  obtain ⟨u, -, -, hawake⟩ := hwakeful.contended (List.ne_nil_of_mem hmem) hfree
  exact h.not_awake hs u hawake

end DistributedAscii.NachOS.Monitor
