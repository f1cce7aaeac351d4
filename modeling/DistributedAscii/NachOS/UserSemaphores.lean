import DistributedAscii.Lib.Runs
import DistributedAscii.NachOS.Semaphore

/-!
# NachOS — the semaphores of user programs

`NachOS_SemCreate`, `SemDestroy`, `SemSignal` and `SemWait` over `semTable`,
called by any number of threads. A thread that sleeps in `P` keeps the
address of its semaphore; `delete` frees that address, and `new` may hand it
out again. A thread that comes back to an address where there is no
semaphore any more is `astray`.

Each semaphore counts the waits that got through and the signals.
-/

namespace DistributedAscii.NachOS

open Lib.Runs

def MAX_SEMAPHORES : Nat := 128

/-- A semaphore with its history. -/
structure UserSemaphore where
  semaphore : Semaphore
  initialValue : Int
  waits : Nat
  signals : Nat
deriving DecidableEq, Repr

/-- Where a thread is: in no `P`, asleep in the one of the semaphore at an
address, made ready again, or back where its semaphore was. -/
inductive ThreadAt where
  | outside
  | blocked (addr : Nat)
  | woken (addr : Nat)
  | astray
deriving DecidableEq, Repr

/-- `answer` is register 2 of a thread after its last call. -/
structure SemaphoreTable where
  heap : Nat → Option UserSemaphore
  semTable : Fin MAX_SEMAPHORES → Option Nat
  threads : Tid → ThreadAt
  answer : Tid → Int

namespace SemaphoreTable

/-- The system calls, with the thread that makes them, and the return of a
thread that was made ready. `addr` is what `new` gives. -/
inductive Event where
  | create (t : Tid) (initialValue : BitVec 32) (addr : Nat)
  | destroy (t : Tid) (id : Int)
  | signal (t : Tid) (id : Int)
  | wait (t : Tid) (id : Int)
  | resume (t : Tid)
deriving DecidableEq, Repr

def start : SemaphoreTable where
  heap _ := none
  semTable _ := none
  threads _ := .outside
  answer _ := 0

/-- The search of `NachOS_SemCreate`. -/
def freeSlot (s : SemaphoreTable) : Option (Fin MAX_SEMAPHORES) :=
  (List.finRange MAX_SEMAPHORES).find? fun i => (s.semTable i).isNone

/-- `id < 0 || id >= MAX_SEMAPHORES || semTable[id] == nullptr`, or the place
and the address. -/
def lookup (s : SemaphoreTable) (id : Int) : Option (Fin MAX_SEMAPHORES × Nat) :=
  if h : 0 ≤ id ∧ id.toNat < MAX_SEMAPHORES then
    (s.semTable ⟨id.toNat, h.2⟩).map fun addr => (⟨id.toNat, h.2⟩, addr)
  else none

def setAnswer (s : SemaphoreTable) (t : Tid) (r : Int) : SemaphoreTable :=
  { s with answer := Function.update s.answer t r }

/-- `semTable[i] = new Semaphore("S", initialValue)`. -/
def make (s : SemaphoreTable) (i : Fin MAX_SEMAPHORES) (addr : Nat) (initialValue : Int) :
    SemaphoreTable :=
  { s with
    heap := Function.update s.heap addr (some ⟨⟨initialValue, []⟩, initialValue, 0, 0⟩)
    semTable := Function.update s.semTable i (some addr) }

/-- `delete semTable[i]`; the destructor deletes the queue. -/
def delete (s : SemaphoreTable) (i : Fin MAX_SEMAPHORES) (addr : Nat) : SemaphoreTable :=
  { s with
    heap := Function.update s.heap addr none
    semTable := Function.update s.semTable i none }

section Lemmas

variable (s : SemaphoreTable) (i : Fin MAX_SEMAPHORES) (addr : Nat) (initialValue : Int)

theorem heap_make : (s.make i addr initialValue).heap =
    Function.update s.heap addr (some ⟨⟨initialValue, []⟩, initialValue, 0, 0⟩) := rfl

theorem semTable_make :
    (s.make i addr initialValue).semTable = Function.update s.semTable i (some addr) := rfl

theorem heap_delete : (s.delete i addr).heap = Function.update s.heap addr none := rfl

theorem semTable_delete : (s.delete i addr).semTable = Function.update s.semTable i none := rfl

end Lemmas

/-- `V` of the semaphore `c` at `addr`. -/
def V (s : SemaphoreTable) (addr : Nat) (c : UserSemaphore) : SemaphoreTable :=
  { s with
    heap := Function.update s.heap addr
      (some { c with semaphore := c.semaphore.V.1, signals := c.signals + 1 })
    threads :=
      match c.semaphore.V.2 with
      | some u => Function.update s.threads u (.woken addr)
      | none => s.threads }

/-- Thread `t` at the test of `P` of the semaphore `c` at `addr`. -/
def P (s : SemaphoreTable) (t : Tid) (addr : Nat) (c : UserSemaphore) : SemaphoreTable :=
  let r := c.semaphore.P t
  if r.2 then
    { s with
      heap := Function.update s.heap addr
        (some { c with semaphore := r.1, waits := c.waits + 1 })
      threads := Function.update s.threads t .outside
      answer := Function.update s.answer t 0 }
  else
    { s with
      heap := Function.update s.heap addr (some { c with semaphore := r.1 })
      threads := Function.update s.threads t (.blocked addr) }

/-- There is no semaphore at the address any more. -/
def lose (s : SemaphoreTable) (t : Tid) : SemaphoreTable :=
  { s with threads := Function.update s.threads t .astray }

def SemCreate (s : SemaphoreTable) (t : Tid) (initialValue : BitVec 32) (addr : Nat) :
    Option SemaphoreTable :=
  match s.freeSlot with
  | none => some (s.setAnswer t (-1))
  | some i =>
      if (s.heap addr).isNone then
        some ((s.make i addr initialValue.toInt).setAnswer t i)
      else none

def SemDestroy (s : SemaphoreTable) (t : Tid) (id : Int) : Option SemaphoreTable :=
  match s.lookup id with
  | none => some (s.setAnswer t (-1))
  | some (i, addr) => some ((s.delete i addr).setAnswer t 0)

def SemSignal (s : SemaphoreTable) (t : Tid) (id : Int) : Option SemaphoreTable :=
  match s.lookup id with
  | none => some (s.setAnswer t (-1))
  | some (_, addr) => (s.heap addr).map fun c => (s.V addr c).setAnswer t 0

def SemWait (s : SemaphoreTable) (t : Tid) (id : Int) : Option SemaphoreTable :=
  match s.lookup id with
  | none => some (s.setAnswer t (-1))
  | some (_, addr) => (s.heap addr).map fun c => s.P t addr c

/-- A thread calls when it is in no `P`, and runs again when it was woken. -/
def step (s : SemaphoreTable) : Event → Option SemaphoreTable
  | .create t initialValue addr =>
      if s.threads t = .outside then s.SemCreate t initialValue addr else none
  | .destroy t id => if s.threads t = .outside then s.SemDestroy t id else none
  | .signal t id => if s.threads t = .outside then s.SemSignal t id else none
  | .wait t id => if s.threads t = .outside then s.SemWait t id else none
  | .resume t =>
      match s.threads t with
      | .woken addr =>
          match s.heap addr with
          | none => some (s.lose t)
          | some c => some (s.P t addr c)
      | _ => none

/-- What `P` does. -/
theorem P_cases (s : SemaphoreTable) (t : Tid) (addr : Nat) (c : UserSemaphore) :
    (∃ v, (s.P t addr c).heap = Function.update s.heap addr
          (some { c with semaphore := { c.semaphore with value := v }, waits := c.waits + 1 }) ∧
        (s.P t addr c).threads = Function.update s.threads t .outside) ∨
      ((s.P t addr c).heap = Function.update s.heap addr
          (some { c with semaphore := { c.semaphore with queue := c.semaphore.queue ++ [t] } }) ∧
        (s.P t addr c).threads = Function.update s.threads t (.blocked addr)) := by
  by_cases hzero : c.semaphore.value = 0
  · exact .inr (by simp [P, Semaphore.P, hzero])
  · exact .inl ⟨wrap32 (c.semaphore.value - 1), by simp [P, Semaphore.P, hzero]⟩

@[simp] theorem semTable_P (s : SemaphoreTable) (t : Tid) (addr : Nat) (c : UserSemaphore) :
    (s.P t addr c).semTable = s.semTable := by
  unfold P
  dsimp only
  split <;> rfl

theorem semTable_of_lookup {s : SemaphoreTable} {id : Int} {i : Fin MAX_SEMAPHORES} {addr : Nat}
    (h : s.lookup id = some (i, addr)) : s.semTable i = some addr := by
  simp only [lookup] at h
  split at h
  case isTrue hid =>
    obtain ⟨addr', haddr, heq⟩ := Option.map_eq_some_iff.mp h
    obtain ⟨rfl, rfl⟩ := Prod.mk.injEq .. ▸ heq
    exact haddr
  case isFalse => cases h

theorem semTable_freeSlot {s : SemaphoreTable} {i : Fin MAX_SEMAPHORES}
    (h : s.freeSlot = some i) : s.semTable i = none := by
  simpa using List.find?_some h

/-- What an event does, case by case. -/
inductive Does (s : SemaphoreTable) : Event → SemaphoreTable → Prop where
  | full {t initialValue addr} (h : s.freeSlot = none) :
      Does s (.create t initialValue addr) (s.setAnswer t (-1))
  | create {t initialValue addr i} (hslot : s.freeSlot = some i) (hfresh : s.heap addr = none) :
      Does s (.create t initialValue addr) ((s.make i addr initialValue.toInt).setAnswer t i)
  | refused {t id e} (h : s.lookup id = none)
      (he : e = .destroy t id ∨ e = .signal t id ∨ e = .wait t id) :
      Does s e (s.setAnswer t (-1))
  | destroy {t id i addr} (h : s.lookup id = some (i, addr)) :
      Does s (.destroy t id) ((s.delete i addr).setAnswer t 0)
  | signal {t id i addr c} (h : s.lookup id = some (i, addr)) (hc : s.heap addr = some c) :
      Does s (.signal t id) ((s.V addr c).setAnswer t 0)
  | wait {t id i addr c} (h : s.lookup id = some (i, addr)) (hc : s.heap addr = some c)
      (ht : s.threads t = .outside) : Does s (.wait t id) (s.P t addr c)
  | resume {t addr c} (ht : s.threads t = .woken addr) (hc : s.heap addr = some c) :
      Does s (.resume t) (s.P t addr c)
  | astray {t addr} (ht : s.threads t = .woken addr) (hc : s.heap addr = none) :
      Does s (.resume t) (s.lose t)

theorem does_of_step {s s' : SemaphoreTable} {e : Event} (h : step s e = some s') :
    Does s e s' := by
  cases e with
  | create t initialValue addr =>
      obtain ⟨-, h⟩ := Option.ite_none_right_eq_some.mp h
      simp only [SemCreate] at h
      split at h
      · cases h
        exact .full ‹_›
      · obtain ⟨hfresh, h⟩ := Option.ite_none_right_eq_some.mp h
        cases h
        exact .create ‹_› (Option.isNone_iff_eq_none.mp hfresh)
  | destroy t id =>
      obtain ⟨-, h⟩ := Option.ite_none_right_eq_some.mp h
      simp only [SemDestroy] at h
      split at h
      · cases h
        exact .refused ‹_› (.inl rfl)
      · cases h
        exact .destroy ‹_›
  | signal t id =>
      obtain ⟨-, h⟩ := Option.ite_none_right_eq_some.mp h
      simp only [SemSignal] at h
      split at h
      · cases h
        exact .refused ‹_› (.inr (.inl rfl))
      · obtain ⟨c, hc, rfl⟩ := Option.map_eq_some_iff.mp h
        exact .signal ‹_› hc
  | wait t id =>
      obtain ⟨ht, h⟩ := Option.ite_none_right_eq_some.mp h
      simp only [SemWait] at h
      split at h
      · cases h
        exact .refused ‹_› (.inr (.inr rfl))
      · obtain ⟨c, hc, rfl⟩ := Option.map_eq_some_iff.mp h
        exact .wait ‹_› hc ht
  | resume t =>
      simp only [step] at h
      split at h
      case h_1 addr ht =>
        split at h
        · cases h
          exact .astray ht ‹_›
        · cases h
          exact .resume ht ‹_›
      case h_2 => cases h

end SemaphoreTable

end DistributedAscii.NachOS
