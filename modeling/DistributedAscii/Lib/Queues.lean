import Mathlib.Data.List.Nodup
import Mathlib.Logic.Function.Basic

/-!
# Lib — queues and who stands in them

Tasks that stand in one of several queues at a time, each at most once.
`place` is what the tasks say about themselves, `queue` is what the lists
say; `Placed` is their agreement. It survives when a task that stands
nowhere joins a queue, when the first one of a queue leaves it, and so when
the first one of a queue changes over to another.
-/

namespace DistributedAscii.Lib.Queues

open Function (update update_self update_of_ne)

variable {κ τ : Type*} {queue : κ → List τ} {place : τ → Option κ}

/-- Every task stands where it says, and nowhere twice. -/
structure Placed (queue : κ → List τ) (place : τ → Option κ) : Prop where
  mem_iff : ∀ k t, t ∈ queue k ↔ place t = some k
  nodup : ∀ k, (queue k).Nodup

namespace Placed

variable {k : κ} {t : τ} {rest : List τ}

theorem of_eq (h : Placed queue place) {queue' : κ → List τ} {place' : τ → Option κ}
    (hqueue : queue' = queue) (hplace : place' = place) : Placed queue' place' := by
  rw [hqueue, hplace]
  exact h

/-- Nobody stands in two queues. -/
theorem eq_of_mem (h : Placed queue place) {k' : κ} (hk : t ∈ queue k) (hk' : t ∈ queue k') :
    k = k' := by
  rw [h.mem_iff] at hk hk'
  exact Option.some.inj (hk.symm.trans hk')

theorem place_head (h : Placed queue place) (hk : queue k = t :: rest) : place t = some k :=
  (h.mem_iff k t).mp (by rw [hk]; exact List.mem_cons_self)

variable [DecidableEq κ] [DecidableEq τ]

/-- A task that stands nowhere joins the end of a queue. -/
theorem push (h : Placed queue place) (ht : place t = none) :
    Placed (update queue k (queue k ++ [t])) (update place t (some k)) := by
  have hout : ∀ k, t ∉ queue k := by
    intro k hk
    rw [h.mem_iff, ht] at hk
    cases hk
  constructor
  · intro k' u
    by_cases hu : u = t
    · subst hu
      rw [update_self]
      by_cases hk : k' = k
      · subst hk
        simp
      · rw [update_of_ne hk]
        simp [hout, Ne.symm hk]
    · rw [update_of_ne hu, ← h.mem_iff]
      by_cases hk : k' = k
      · subst hk
        simp [hu]
      · rw [update_of_ne hk]
  · intro k'
    by_cases hk : k' = k
    · subst hk
      rw [update_self, List.nodup_append]
      refine ⟨h.nodup k', List.nodup_singleton t, ?_⟩
      rintro u hu v hv rfl
      rw [List.mem_singleton] at hv
      subst hv
      exact hout k' hu
    · rw [update_of_ne hk]
      exact h.nodup k'

/-- The first task of a queue leaves it. -/
theorem pop (h : Placed queue place) (hk : queue k = t :: rest) :
    Placed (update queue k rest) (update place t none) := by
  have hplace := h.place_head hk
  have hnodup := h.nodup k
  rw [hk, List.nodup_cons] at hnodup
  constructor
  · intro k' u
    by_cases hu : u = t
    · subst hu
      rw [update_self]
      by_cases hk' : k' = k
      · subst hk'
        simp [hnodup.1]
      · rw [update_of_ne hk', h.mem_iff, hplace]
        simp [Ne.symm hk']
    · rw [update_of_ne hu, ← h.mem_iff]
      by_cases hk' : k' = k
      · subst hk'
        simp [hk, hu]
      · rw [update_of_ne hk']
  · intro k'
    by_cases hk' : k' = k
    · subst hk'
      rw [update_self]
      exact hnodup.2
    · rw [update_of_ne hk']
      exact h.nodup k'

/-- The first task of a queue changes over to the end of another. -/
theorem move (h : Placed queue place) {k' : κ} (hne : k' ≠ k) (hk : queue k = t :: rest) :
    Placed (update (update queue k rest) k' (queue k' ++ [t])) (update place t (some k')) := by
  have hpush := (h.pop hk).push (k := k') (update_self t none place)
  rwa [update_of_ne hne, Function.update_idem] at hpush

/-- All tasks of a queue change over. -/
theorem moveAll (h : Placed queue place) (k k' : κ) (hne : k' ≠ k) :
    Placed (update (update queue k []) k' (queue k' ++ queue k))
      (fun t => if t ∈ queue k then some k' else place t) := by
  constructor
  · intro j u
    -- who changes over is in `k'` and nowhere else; the others stay where they are
    by_cases hu : u ∈ queue k
    · rw [if_pos hu]
      by_cases hj : j = k'
      · subst hj
        simp [hu]
      · rw [update_of_ne hj]
        by_cases hjk : j = k
        · subst hjk
          simp [hne]
        · rw [update_of_ne hjk]
          simp [Ne.symm hj, show u ∉ queue j from fun hmem => hjk (h.eq_of_mem hmem hu)]
    · rw [if_neg hu, ← h.mem_iff]
      by_cases hj : j = k'
      · subst hj
        simp [hu]
      · rw [update_of_ne hj]
        by_cases hjk : j = k
        · subst hjk
          simp [hu]
        · rw [update_of_ne hjk]
  · intro j
    by_cases hj : j = k'
    · subst hj
      rw [update_self, List.nodup_append]
      refine ⟨h.nodup j, h.nodup k, ?_⟩
      rintro u hu v hv rfl
      exact hne (h.eq_of_mem hu hv)
    · rw [update_of_ne hj]
      by_cases hjk : j = k
      · subst hjk
        rw [update_self]
        exact List.nodup_nil
      · rw [update_of_ne hjk]
        exact h.nodup j

end Placed

end DistributedAscii.Lib.Queues
