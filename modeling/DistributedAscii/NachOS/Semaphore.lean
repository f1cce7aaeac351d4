import Mathlib.Tactic

/-!
# NachOS — Semaphore

`Semaphore` of `threads/synch.cc`. Interrupts are off inside `P` and `V`, so
that one pass through the test of `P` is one action, and so is `V`.
-/

namespace DistributedAscii.NachOS

/-- An `int` after arithmetic. -/
def wrap32 (n : Int) : Int :=
  n.bmod (2 ^ 32)

theorem wrap32_of_range {n : Int} (h0 : -2 ^ 31 ≤ n) (h1 : n < 2 ^ 31) : wrap32 n = n := by
  apply Int.bmod_eq_of_le <;> omega

/-- Threads by number. -/
abbrev Tid := Nat

/-- The queue has the threads that are asleep in `P`. -/
structure Semaphore where
  value : Int
  queue : List Tid
deriving DecidableEq, Repr

namespace Semaphore

/-- `while (value == 0)`: thread `t` falls asleep (`false`), or gets through. -/
def P (s : Semaphore) (t : Tid) : Semaphore × Bool :=
  if s.value = 0 then ({ s with queue := s.queue ++ [t] }, false)
  else ({ s with value := wrap32 (s.value - 1) }, true)

/-- The first thread of the queue is made ready. -/
def V (s : Semaphore) : Semaphore × Option Tid :=
  ({ value := wrap32 (s.value + 1), queue := s.queue.tail }, s.queue.head?)

end Semaphore

end DistributedAscii.NachOS
