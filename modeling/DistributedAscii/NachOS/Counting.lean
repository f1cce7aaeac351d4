import DistributedAscii.NachOS.UserSemaphores

/-!
# NachOS — what the semaphores count

A semaphore lets through as many waits as it was created with and signalled,
whatever the interleaving: its value is the balance of the three, and `P`
stops at 0. This holds exactly as long as nobody creates a semaphore with a
negative value, and no signal makes the value overflow.
-/

namespace DistributedAscii.NachOS

open Lib.Runs

namespace UserSemaphore

/-- The value is what is left of the signals, and fits an `int`. -/
structure Balanced (c : UserSemaphore) : Prop where
  initial : 0 ≤ c.initialValue
  value : c.semaphore.value = c.initialValue + c.signals - c.waits
  nonneg : 0 ≤ c.semaphore.value
  fits : c.semaphore.value < 2 ^ 31

/-- A semaphore never lends what it has not got. -/
def Covered (c : UserSemaphore) : Prop :=
  0 ≤ c.semaphore.value ∧ c.waits ≤ max c.initialValue 0 + c.signals

theorem Balanced.covered {c : UserSemaphore} (h : c.Balanced) : c.Covered := by
  have hvalue := h.value
  have hnonneg := h.nonneg
  refine ⟨h.nonneg, ?_⟩
  rw [max_eq_left h.initial]
  omega

theorem balanced_new {v : BitVec 32} (hv : 0 ≤ v.toInt) :
    Balanced ⟨⟨v.toInt, []⟩, v.toInt, 0, 0⟩ where
  initial := hv
  value := by simp
  nonneg := hv
  fits := by
    have := BitVec.toInt_lt (x := v)
    simpa using this

theorem Balanced.asleep {c : UserSemaphore} (h : c.Balanced) {t : Tid}
    (hasleep : (c.semaphore.P t).2 = false) :
    Balanced { c with semaphore := (c.semaphore.P t).1 } := by
  simp only [Semaphore.P] at hasleep ⊢
  split at hasleep
  case isTrue hzero =>
    rw [if_pos hzero]
    exact ⟨h.initial, h.value, h.nonneg, h.fits⟩
  case isFalse => cases hasleep

theorem Balanced.through {c : UserSemaphore} (h : c.Balanced) {t : Tid}
    (hthrough : (c.semaphore.P t).2 = true) :
    Balanced { c with semaphore := (c.semaphore.P t).1, waits := c.waits + 1 } := by
  simp only [Semaphore.P] at hthrough ⊢
  split at hthrough
  case isTrue => cases hthrough
  case isFalse hne =>
    have hvalue := h.value
    have hnonneg := h.nonneg
    have hfits := h.fits
    have hwrap : wrap32 (c.semaphore.value - 1) = c.semaphore.value - 1 :=
      wrap32_of_range (by omega) (by omega)
    rw [if_neg hne, hwrap]
    refine ⟨h.initial, ?_, ?_, ?_⟩
    · push_cast
      omega
    · show 0 ≤ c.semaphore.value - 1
      omega
    · show c.semaphore.value - 1 < 2 ^ 31
      omega

theorem Balanced.signal {c : UserSemaphore} (h : c.Balanced)
    (hroom : c.semaphore.value ≠ 2 ^ 31 - 1) :
    Balanced { c with semaphore := c.semaphore.V.1, signals := c.signals + 1 } := by
  have hvalue := h.value
  have hnonneg := h.nonneg
  have hfits := h.fits
  have hwrap : wrap32 (c.semaphore.value + 1) = c.semaphore.value + 1 :=
    wrap32_of_range (by omega) (by omega)
  refine ⟨h.initial, ?_, ?_, ?_⟩
  · simp only [Semaphore.V, hwrap]
    push_cast
    omega
  · simp only [Semaphore.V, hwrap]
    omega
  · simp only [Semaphore.V, hwrap]
    omega

end UserSemaphore

namespace SemaphoreTable

/-- Every live semaphore of the table is covered. -/
def AllCovered (s : SemaphoreTable) : Prop :=
  ∀ i addr c, s.semTable i = some addr → s.heap addr = some c → c.Covered

/-- A semaphore is created with a value that is not negative, and signalled
below the largest `int`. -/
def CountsInRange (s : SemaphoreTable) : Event → Prop
  | .create _ initialValue _ => s.freeSlot ≠ none → 0 ≤ initialValue.toInt
  | .signal _ id => ∀ i addr c, s.lookup id = some (i, addr) → s.heap addr = some c →
      c.semaphore.value ≠ 2 ^ 31 - 1
  | _ => True

def AllBalanced (s : SemaphoreTable) : Prop :=
  ∀ addr c, s.heap addr = some c → c.Balanced

theorem AllBalanced.update {s : SemaphoreTable} (h : s.AllBalanced) {addr : Nat}
    {o : Option UserSemaphore} (ho : ∀ c, o = some c → c.Balanced) {s' : SemaphoreTable}
    (hs' : s'.heap = Function.update s.heap addr o) : s'.AllBalanced := by
  intro addr' c hc
  rw [hs', Function.update_apply] at hc
  split at hc
  · exact ho c hc
  · exact h addr' c hc

theorem AllBalanced.P {s : SemaphoreTable} (h : s.AllBalanced) {addr : Nat} {c : UserSemaphore}
    (hc : s.heap addr = some c) (t : Tid) : (s.P t addr c).AllBalanced := by
  have hbalanced := h addr c hc
  simp only [SemaphoreTable.P]
  split
  case isTrue hthrough =>
    refine h.update (fun c' hc' => ?_) rfl
    cases hc'
    exact hbalanced.through hthrough
  case isFalse hasleep =>
    refine h.update (fun c' hc' => ?_) rfl
    cases hc'
    exact hbalanced.asleep (by simpa using hasleep)

theorem AllBalanced.step {s s' : SemaphoreTable} {e : Event} (h : s.AllBalanced)
    (hstep : step s e = some s') (hrange : s.CountsInRange e) : s'.AllBalanced := by
  cases does_of_step hstep with
  | full | refused | astray => exact h
  | create hslot =>
      refine h.update (fun c hc => ?_) rfl
      cases hc
      exact UserSemaphore.balanced_new (hrange (by rw [hslot]; simp))
  | destroy => exact h.update (by simp) rfl
  | signal hl hc =>
      refine h.update (fun c' hc' => ?_) rfl
      cases hc'
      exact (h _ _ hc).signal (hrange _ _ _ hl hc)
  | wait _ hc => exact h.P hc _
  | resume _ hc => exact h.P hc _

/-- The other direction: the semaphore that the event is about is not covered
afterwards. -/
theorem range_of_covered {s s' : SemaphoreTable} {e : Event}
    (hstep : step s e = some s') (hcovered : s'.AllCovered) :
    s.CountsInRange e := by
  cases does_of_step hstep with
  | full hfull => exact fun hfree => absurd hfull hfree
  | create hslot hfresh =>
      intro _
      exact (hcovered _ _ _ (Function.update_self ..) (Function.update_self ..)).1
  | refused hl he =>
      rcases he with rfl | rfl | rfl
      · trivial
      · intro i addr c hl'
        rw [hl] at hl'
        cases hl'
      · trivial
  | signal hl hc =>
      rename_i id i addr c
      intro i' addr' c' hl' hc' hmax
      rw [hl] at hl'
      cases hl'
      rw [hc] at hc'
      cases hc'
      have hvalue := (hcovered i addr _ (semTable_of_lookup hl) (Function.update_self ..)).1
      simp only [Semaphore.V, hmax] at hvalue
      revert hvalue
      decide
  | destroy | wait | resume | astray => trivial

/-- **User semaphores count correctly** exactly in the runs in which no
semaphore is created below 0 or signalled at the largest `int`. -/
theorem covered_iff (events : List Event) :
    Throughout step AllCovered start events ↔ EachStep step CountsInRange start events := by
  refine throughout_iff (I := AllBalanced) ?_ AllBalanced.step ?_
    fun _ => range_of_covered
  · intro addr c hc
    cases hc
  · exact fun h i addr c _ hc => (h addr c hc).covered

/-- A semaphore that is created with -1. -/
theorem not_covered : ¬Throughout step AllCovered start [.create 0 (-1) 0] := by
  intro h
  have hcovered := h _ _ (List.prefix_refl _) rfl
  have hvalue := (hcovered ⟨0, by decide⟩ 0 ⟨⟨-1, []⟩, -1, 0, 0⟩ (by decide) (by decide)).1
  revert hvalue
  decide

end SemaphoreTable

end DistributedAscii.NachOS
