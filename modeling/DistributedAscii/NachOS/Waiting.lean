import DistributedAscii.Lib.Queues
import DistributedAscii.NachOS.UserSemaphores

/-!
# NachOS — who sleeps on a semaphore

Every thread that sleeps in `P` is in the queue of its semaphore, and every
thread of a queue sleeps there, as long as the semaphore lives. `SemDestroy`
does not look at the queue, and the destructor deletes it with the threads in
it; `Semaphore::Destroy`, which would make them ready, is not called.
-/

namespace DistributedAscii.NachOS

open Lib.Runs Lib.Queues

namespace SemaphoreTable

/-- Every sleeping thread is in the queue of a semaphore of the table, and no
thread has come back to a semaphore that is gone. -/
def NoneLost (s : SemaphoreTable) : Prop :=
  (∀ t addr, s.threads t = .blocked addr →
    ∃ i c, s.semTable i = some addr ∧ s.heap addr = some c ∧ t ∈ c.semaphore.queue) ∧
  ∀ t, s.threads t ≠ .astray

/-- A semaphore is destroyed when nobody sleeps on it, and who was woken
finds it. -/
def FreedInTime (s : SemaphoreTable) : Event → Prop
  | .destroy _ id => ∀ i addr, s.lookup id = some (i, addr) → ∀ t, s.threads t ≠ .blocked addr
  | .resume t => ∀ addr, s.threads t = .woken addr → s.heap addr ≠ none
  | _ => True

structure Waiting (s : SemaphoreTable) : Prop where
  noneLost : s.NoneLost
  placed : ∀ addr c, s.heap addr = some c → ∃ i, s.semTable i = some addr
  queued : ∀ addr c, s.heap addr = some c →
    c.semaphore.queue.Nodup ∧ ∀ t ∈ c.semaphore.queue, s.threads t = .blocked addr

theorem waiting_start : start.Waiting := by
  refine ⟨⟨?_, ?_⟩, ?_, ?_⟩
  · intro t addr h
    cases h
  · intro t h
    cases h
  · intro addr c h
    cases h
  · intro addr c h
    cases h

/-- The table, and the queue at each address, decide about `Waiting`. -/
theorem Waiting.congr {s s' : SemaphoreTable} (h : s.Waiting) (hheap : s'.heap = s.heap)
    (htable : s'.semTable = s.semTable) (hthreads : s'.threads = s.threads) : s'.Waiting := by
  obtain ⟨⟨hblocked, hastray⟩, hplaced, hqueued⟩ := h
  refine ⟨⟨?_, ?_⟩, ?_, ?_⟩
  · rwa [hheap, htable, hthreads]
  · rwa [hthreads]
  · rwa [hheap, htable]
  · rwa [hheap, hthreads]

theorem Waiting.make {s : SemaphoreTable} (h : s.Waiting) {i : Fin MAX_SEMAPHORES} {addr : Nat}
    (hslot : s.semTable i = none) (hfresh : s.heap addr = none) (initialValue : Int) :
    (s.make i addr initialValue).Waiting := by
  have hother : ∀ {addr' c}, s.heap addr' = some c → addr' ≠ addr := by
    rintro addr' c hc rfl
    rw [hfresh] at hc
    cases hc
  have hslots : ∀ {j addr'}, s.semTable j = some addr' → j ≠ i := by
    rintro j addr' hj rfl
    rw [hslot] at hj
    cases hj
  refine ⟨⟨?_, h.noneLost.2⟩, ?_, ?_⟩
  · intro t addr' ht
    obtain ⟨j, c, hj, hc, hmem⟩ := h.noneLost.1 t addr' ht
    refine ⟨j, c, ?_, ?_, hmem⟩
    · rw [semTable_make, Function.update_of_ne (hslots hj), hj]
    · rw [heap_make, Function.update_of_ne (hother hc), hc]
  · intro addr' c hc
    by_cases haddr : addr' = addr
    · subst haddr
      exact ⟨i, Function.update_self ..⟩
    · rw [heap_make, Function.update_of_ne haddr] at hc
      obtain ⟨j, hj⟩ := h.placed addr' c hc
      refine ⟨j, ?_⟩
      rw [semTable_make, Function.update_of_ne (hslots hj), hj]
  · intro addr' c hc
    by_cases haddr : addr' = addr
    · subst haddr
      rw [heap_make, Function.update_self] at hc
      cases hc
      simp
    · rw [heap_make, Function.update_of_ne haddr] at hc
      exact h.queued addr' c hc

theorem Waiting.delete {s : SemaphoreTable} (h : s.Waiting) {i : Fin MAX_SEMAPHORES} {addr : Nat}
    (hslot : s.semTable i = some addr) (hnobody : ∀ t, s.threads t ≠ .blocked addr) :
    (s.delete i addr).Waiting := by
  have hslots : ∀ {j addr'}, s.semTable j = some addr' → addr' ≠ addr → j ≠ i := by
    rintro j addr' hj hne rfl
    rw [hslot] at hj
    cases hj
    exact hne rfl
  have hheap : ∀ {addr' c}, (s.delete i addr).heap addr' = some c →
      addr' ≠ addr ∧ s.heap addr' = some c := by
    intro addr' c hc
    rw [heap_delete, Function.update_apply] at hc
    split at hc
    · cases hc
    · exact ⟨‹_›, hc⟩
  refine ⟨⟨?_, h.noneLost.2⟩, ?_, ?_⟩
  · intro t addr' ht
    obtain ⟨j, c, hj, hc, hmem⟩ := h.noneLost.1 t addr' ht
    have haddr : addr' ≠ addr := by
      rintro rfl
      exact hnobody t ht
    refine ⟨j, c, ?_, ?_, hmem⟩
    · rw [semTable_delete, Function.update_of_ne (hslots hj haddr), hj]
    · rw [heap_delete, Function.update_of_ne haddr, hc]
  · intro addr' c hc
    obtain ⟨haddr, hc⟩ := hheap hc
    obtain ⟨j, hj⟩ := h.placed addr' c hc
    refine ⟨j, ?_⟩
    rw [semTable_delete, Function.update_of_ne (hslots hj haddr), hj]
  · intro addr' c hc
    exact h.queued addr' c (hheap hc).2

/-- The queue at an address. -/
def queueAt (s : SemaphoreTable) (addr : Nat) : List Tid :=
  match s.heap addr with
  | some c => c.semaphore.queue
  | none => []

/-- The address at which a thread sleeps. -/
def sleepsAt (s : SemaphoreTable) (t : Tid) : Option Nat :=
  match s.threads t with
  | .blocked addr => some addr
  | _ => none

theorem queueAt_of_heap {s : SemaphoreTable} {addr : Nat} {c : UserSemaphore}
    (hc : s.heap addr = some c) : s.queueAt addr = c.semaphore.queue := by
  rw [queueAt, hc]

theorem mem_queueAt_iff {s : SemaphoreTable} {addr : Nat} {t : Tid} :
    t ∈ s.queueAt addr ↔ ∃ c, s.heap addr = some c ∧ t ∈ c.semaphore.queue := by
  unfold queueAt
  cases s.heap addr <;> simp

theorem sleepsAt_eq_some_iff {s : SemaphoreTable} {addr : Nat} {t : Tid} :
    s.sleepsAt t = some addr ↔ s.threads t = .blocked addr := by
  unfold sleepsAt
  cases s.threads t <;> simp

theorem sleepsAt_eq_none_iff {s : SemaphoreTable} {t : Tid} :
    s.sleepsAt t = none ↔ ∀ addr, s.threads t ≠ .blocked addr := by
  unfold sleepsAt
  cases s.threads t <;> simp

/-- A semaphore with another queue at its address. -/
theorem queueAt_update {s s' : SemaphoreTable} {addr : Nat} {c : UserSemaphore}
    (hheap : s'.heap = Function.update s.heap addr (some c)) :
    s'.queueAt = Function.update s.queueAt addr c.semaphore.queue := by
  funext addr'
  by_cases hne : addr' = addr
  · subst hne
    simp [queueAt, hheap]
  · simp [queueAt, hheap, hne]

/-- A thread that goes to another place. -/
theorem sleepsAt_update {s s' : SemaphoreTable} {t : Tid} {at' : ThreadAt}
    (hthreads : s'.threads = Function.update s.threads t at') (place : Option Nat)
    (hplace : ∀ addr, at' = .blocked addr ↔ place = some addr) :
    s'.sleepsAt = Function.update s.sleepsAt t place := by
  funext u
  by_cases hu : u = t
  · subst hu
    refine Option.ext fun addr => ?_
    rw [Function.update_self, sleepsAt_eq_some_iff, hthreads, Function.update_self, hplace]
  · simp [sleepsAt, hthreads, hu]

theorem Waiting.sleepers {s : SemaphoreTable} (h : s.Waiting) : Placed s.queueAt s.sleepsAt where
  mem_iff addr t := by
    rw [mem_queueAt_iff, sleepsAt_eq_some_iff]
    constructor
    · rintro ⟨c, hc, ht⟩
      exact (h.queued addr c hc).2 t ht
    · intro ht
      obtain ⟨i, c, -, hc, hmem⟩ := h.noneLost.1 t addr ht
      exact ⟨c, hc, hmem⟩
  nodup addr := by
    unfold queueAt
    split
    · exact (h.queued addr _ ‹_›).1
    · exact List.nodup_nil

/-- A new semaphore value and queue at one address, with all threads where
they say. -/
theorem Waiting.requeue {s s' : SemaphoreTable} (h : s.Waiting) {addr : Nat}
    {c c' : UserSemaphore} (hc : s.heap addr = some c)
    (hheap : s'.heap = Function.update s.heap addr (some c'))
    (htable : s'.semTable = s.semTable) (hsleepers : Placed s'.queueAt s'.sleepsAt)
    (hastray : ∀ t, s'.threads t ≠ .astray) : s'.Waiting := by
  have hplaced : ∀ addr' d, s'.heap addr' = some d → ∃ i, s'.semTable i = some addr' := by
    intro addr' d hd
    rw [htable]
    by_cases hne : addr' = addr
    · subst hne
      exact h.placed addr' c hc
    · rw [hheap, Function.update_of_ne hne] at hd
      exact h.placed addr' d hd
  refine ⟨⟨?_, hastray⟩, hplaced, ?_⟩
  · intro t addr' ht
    rw [← sleepsAt_eq_some_iff, ← hsleepers.mem_iff, mem_queueAt_iff] at ht
    obtain ⟨d, hd, hmem⟩ := ht
    obtain ⟨i, hi⟩ := hplaced addr' d hd
    exact ⟨i, d, hi, hd, hmem⟩
  · intro addr' d hd
    rw [← queueAt_of_heap hd]
    refine ⟨hsleepers.nodup addr', fun t ht => ?_⟩
    rwa [hsleepers.mem_iff, sleepsAt_eq_some_iff] at ht

/-- A signal takes the first thread out of the queue. -/
theorem Waiting.signal {s : SemaphoreTable} (h : s.Waiting) {addr : Nat} {c : UserSemaphore}
    (hc : s.heap addr = some c) : (s.V addr c).Waiting := by
  have hqueue := queueAt_of_heap hc
  cases hhead : c.semaphore.queue with
  | nil =>
      have hthreads : (s.V addr c).threads = s.threads := by
        simp [SemaphoreTable.V, Semaphore.V, hhead]
      refine h.requeue hc rfl rfl (h.sleepers.of_eq ?_ ?_) (hthreads ▸ h.noneLost.2)
      · refine (queueAt_update rfl).trans (Function.update_eq_self_iff.mpr ?_)
        rw [hqueue, hhead]
        simp [Semaphore.V, hhead]
      · unfold sleepsAt
        rw [hthreads]
  | cons u rest =>
      have hthreads : (s.V addr c).threads = Function.update s.threads u (.woken addr) := by
        simp [SemaphoreTable.V, Semaphore.V, hhead]
      refine h.requeue hc rfl rfl ((h.sleepers.pop (hqueue.trans hhead)).of_eq ?_ ?_) fun t => ?_
      · refine (queueAt_update rfl).trans ?_
        simp [Semaphore.V, hhead]
      · exact sleepsAt_update hthreads none (by simp)
      · rw [hthreads, Function.update_apply]
        split
        · simp
        · exact h.noneLost.2 t

/-- A thread that sleeps nowhere gets through `P`, or sleeps in its queue. -/
theorem Waiting.P {s : SemaphoreTable} (h : s.Waiting) {addr : Nat} {c : UserSemaphore}
    (hc : s.heap addr = some c) {t : Tid} (ht : ∀ addr, s.threads t ≠ .blocked addr) :
    (s.P t addr c).Waiting := by
  have hqueue := queueAt_of_heap hc
  have hnowhere := sleepsAt_eq_none_iff.mpr ht
  have hastray : ∀ {at' : ThreadAt}, at' ≠ .astray →
      ∀ u, Function.update s.threads t at' u ≠ .astray := by
    intro at' hat u
    rw [Function.update_apply]
    split
    · exact hat
    · exact h.noneLost.2 u
  obtain ⟨v, hheap, hthreads⟩ | ⟨hheap, hthreads⟩ := s.P_cases t addr c
  · refine h.requeue hc hheap (semTable_P ..) (h.sleepers.of_eq ?_ ?_)
      (hthreads ▸ hastray (by simp))
    · refine (queueAt_update hheap).trans ?_
      rw [← hqueue, Function.update_eq_self]
    · refine (sleepsAt_update hthreads none (by simp)).trans ?_
      rw [← hnowhere, Function.update_eq_self]
  · refine h.requeue hc hheap (semTable_P ..) ((h.sleepers.push (k := addr) hnowhere).of_eq ?_ ?_)
      (hthreads ▸ hastray (by simp))
    · exact (queueAt_update hheap).trans (by rw [hqueue])
    · exact sleepsAt_update hthreads (some addr) (by simp)

theorem Waiting.step {s s' : SemaphoreTable} {e : Event} (h : s.Waiting)
    (hstep : step s e = some s') (hfreed : s.FreedInTime e) : s'.Waiting := by
  cases does_of_step hstep with
  | full | refused => exact h.congr rfl rfl rfl
  | create hslot hfresh =>
      exact (h.make (semTable_freeSlot hslot) hfresh _).congr rfl rfl rfl
  | destroy hl => exact (h.delete (semTable_of_lookup hl) (hfreed _ _ hl)).congr rfl rfl rfl
  | signal hl hc => exact (h.signal hc).congr rfl rfl rfl
  | wait hl hc ht => exact h.P hc (by simp [ht])
  | resume ht hc => exact h.P hc (by simp [ht])
  | astray ht hc => exact absurd hc (hfreed _ ht)

/-- The other direction: a thread sleeps where no semaphore is any more. -/
theorem freedInTime_of_noneLost {s s' : SemaphoreTable} {e : Event} (hstep : step s e = some s')
    (hlost : s'.NoneLost) : s.FreedInTime e := by
  cases does_of_step hstep with
  | full | create | signal | wait => trivial
  | refused hl he =>
      rcases he with rfl | rfl | rfl
      · intro i addr hl'
        rw [hl] at hl'
        cases hl'
      · trivial
      · trivial
  | @destroy _ _ i addr hl =>
      intro i' addr' hl' t ht
      rw [hl] at hl'
      cases hl'
      obtain ⟨-, c, -, hc, -⟩ := hlost.1 t addr ht
      have hgone : (s.delete i addr).heap addr = none := Function.update_self ..
      exact absurd (hgone.symm.trans hc) (by simp)
  | resume ht hc =>
      intro addr' ht'
      rw [ht] at ht'
      cases ht'
      simp [hc]
  | astray ht hc => exact absurd (Function.update_self ..) (hlost.2 _)

/-- **No thread is lost on a destroyed semaphore** exactly in the runs in
which semaphores are destroyed without a thread asleep on them, and found by
the threads that were woken. -/
theorem noneLost_iff (events : List Event) :
    Throughout step NoneLost start events ↔ EachStep step FreedInTime start events :=
  throughout_iff waiting_start Waiting.step Waiting.noneLost fun _ => freedInTime_of_noneLost

/-- Thread 1 waits for thread 0, which destroys the semaphore. -/
theorem destroy_loses :
    ¬Throughout step NoneLost start [.create 0 0 0, .wait 1 0, .destroy 0 0] := by
  intro h
  have hlost := h _ _ (List.prefix_refl _) rfl
  obtain ⟨i, c, -, hc, -⟩ := hlost.1 1 0 (by decide)
  cases hc

end SemaphoreTable

end DistributedAscii.NachOS
