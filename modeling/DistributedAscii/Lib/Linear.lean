import Mathlib.Data.List.Infix
import Mathlib.Logic.Function.Basic

/-!
# Lib — calls as if one came behind the other

Threads call operations of an object, and each operation takes effect in one
moment between its call and its return. The `log` is what took effect, in that
order; `Replay` says that an object on its own, on which the operations come
one behind the other, gives the answers of the log. What a thread has been
given back is what the log has of it, but for the operation that it is still
in (`Recorded`).
-/

namespace DistributedAscii.Lib.Linear

variable {τ κ σ : Type*}

/-- What the operations of a log, with their answers, make of an object. -/
inductive Replay (spec : σ → κ → σ → Prop) (first : σ) : List (τ × κ) → σ → Prop where
  | nil : Replay spec first [] first
  | snoc {log state state' t op} (hfront : Replay spec first log state)
      (hlast : spec state op state') : Replay spec first (log ++ [(t, op)]) state'

/-- A log is one of another object, if each operation of the first is one of
the second. -/
theorem Replay.map {σ' : Type*} {spec : σ → κ → σ → Prop} {spec' : σ' → κ → σ' → Prop}
    {f : σ → σ'} (hspec : ∀ {state op state'}, spec state op state' → spec' (f state) op (f state'))
    {first state : σ} {log : List (τ × κ)} (h : Replay spec first log state) :
    Replay spec' (f first) log (f state) := by
  induction h with
  | nil => exact .nil
  | snoc _ hlast ih => exact ih.snoc (hspec hlast)

variable [DecidableEq τ]

/-- The operations of a thread. -/
def ofThread (t : τ) (log : List (τ × κ)) : List κ :=
  log.filterMap fun entry => if entry.1 = t then some entry.2 else none

theorem ofThread_snoc (t u : τ) (log : List (τ × κ)) (op : κ) :
    ofThread t (log ++ [(u, op)]) = ofThread t log ++ if u = t then [op] else [] := by
  rw [ofThread, List.filterMap_append]
  by_cases hu : u = t
  · simp [hu, ofThread]
  · simp [hu, ofThread]

/-- Each thread has got its answers, but for the operation it is in, which its
place tells. -/
def Recorded {π : Type*} (unreturned : π → List κ) (point : τ → π) (log returned : List (τ × κ)) :
    Prop :=
  ∀ t, ofThread t log = ofThread t returned ++ unreturned (point t)

namespace Recorded

variable {π : Type*} {unreturned : π → List κ} {point : τ → π} {log returned : List (τ × κ)}
  {t : τ} {p : π} {op : κ}

/-- A thread goes on with the same operation, or with none. -/
theorem moveTo (h : Recorded unreturned point log returned)
    (hp : unreturned p = unreturned (point t)) :
    Recorded unreturned (Function.update point t p) log returned := by
  intro u
  rw [h u]
  by_cases hu : u = t
  · subst hu
    rw [Function.update_self, hp]
  · rw [Function.update_of_ne hu]

/-- An operation of thread `t` takes effect. -/
theorem effect (h : Recorded unreturned point log returned) (hold : unreturned (point t) = [])
    (hp : unreturned p = [op]) :
    Recorded unreturned (Function.update point t p) (log ++ [(t, op)]) returned := by
  intro u
  rw [ofThread_snoc, h u]
  by_cases hu : u = t
  · subst hu
    rw [Function.update_self, hold, hp, if_pos rfl, List.append_nil]
  · rw [Function.update_of_ne hu, if_neg (Ne.symm hu), List.append_nil]

/-- It returns. -/
theorem leave (h : Recorded unreturned point log returned) (hold : unreturned (point t) = [op])
    (hp : unreturned p = []) :
    Recorded unreturned (Function.update point t p) log (returned ++ [(t, op)]) := by
  intro u
  rw [ofThread_snoc, h u]
  by_cases hu : u = t
  · subst hu
    rw [Function.update_self, hold, hp, if_pos rfl, List.append_nil]
  · rw [Function.update_of_ne hu, if_neg (Ne.symm hu), List.append_nil]

end Recorded

end DistributedAscii.Lib.Linear
