import DistributedAscii.Lib.RingBuffer
import DistributedAscii.Text

/-!
# Simulation — the shared memory

`SharedMemory.cpp`. `write` and `read` are loops over the circular buffer
and other threads may run between any two of their accesses, so a call in
progress is a value of its own (`WriteAt`, `ReadAt`) and each of its steps
does one thing: store a character, load one, or advance an index.

A semaphore is its value. `finishMutex` is created and never used.
-/

namespace DistributedAscii.Simulation

open Lib

/-- The threads, and the semaphores named after them. -/
inductive Party where
  | client
  | tenedor
  | server
deriving DecidableEq, Repr

instance neZero_buffer : NeZero 1024 := ⟨by decide⟩

structure SharedMemory where
  ring : Ring UInt8 1024
  semaphore : Party → Nat
  finished : Bool

namespace SharedMemory

/-- The constructor; `buffer` is not initialised. -/
def init (buffer : Fin 1024 → UInt8) : SharedMemory where
  ring := { buffer := buffer, writeIndex := 0, readIndex := 0 }
  semaphore := fun _ => 0
  finished := false

/-- `sem_post`. -/
def signal (p : Party) (m : SharedMemory) : SharedMemory :=
  { m with semaphore := fun q => if q = p then m.semaphore q + 1 else m.semaphore q }

def decrement (p : Party) (m : SharedMemory) : SharedMemory :=
  { m with semaphore := fun q => if q = p then m.semaphore q - 1 else m.semaphore q }

/-- `sem_wait`; `none` while it blocks. -/
def wait (p : Party) (m : SharedMemory) : Option SharedMemory :=
  if m.semaphore p = 0 then none else some (m.decrement p)

def signalClient : SharedMemory → SharedMemory := signal .client

def waitClient : SharedMemory → Option SharedMemory := wait .client

def signalTenedor : SharedMemory → SharedMemory := signal .tenedor

def waitTenedor : SharedMemory → Option SharedMemory := wait .tenedor

def signalServer : SharedMemory → SharedMemory := signal .server

def waitServer : SharedMemory → Option SharedMemory := wait .server

def setFinished (value : Bool) (m : SharedMemory) : SharedMemory :=
  { m with finished := value }

def getFinished (m : SharedMemory) : Bool :=
  m.finished

end SharedMemory

/-! ## `write` -/

/-- `value[i]`. -/
def charAt (value : CString) (i : Nat) : UInt8 :=
  value.bytes.getD i 0

/-- A call of `write`: in front of `buffer[writeIndex] = value[i]`, or in
front of the advance behind it. -/
inductive WriteAt where
  | store (value : CString) (i : Nat)
  | advance (value : CString) (i : Nat)
deriving DecidableEq

/-- A step of `write`; `none` is its return. The terminator is stored as the
characters before it are. -/
def writeStep : WriteAt → Ring UInt8 1024 → Ring UInt8 1024 × Option WriteAt
  | .store value i, r => (r.store (charAt value i), some (.advance value i))
  | .advance value i, r =>
      (r.advanceWrite, if charAt value i = 0 then none else some (.store value (i + 1)))

/-! ## `read` -/

/-- A call of `read`: in front of the test of `buffer[readIndex]`, or in
front of the advance behind it, which is the last one if `more` is false. -/
inductive ReadAt where
  | load (result : Bytes)
  | advance (result : Bytes) (more : Bool)
deriving DecidableEq

/-- A step of `read`; `.inl` is its return. -/
def readStep : ReadAt → Ring UInt8 1024 → Ring UInt8 1024 × (Bytes ⊕ ReadAt)
  | .load result, r =>
      (r, .inr (if r.load ≠ 0 then .advance (result ++ [r.load]) true
        else .advance result false))
  | .advance result more, r =>
      (r.advanceRead, if more then .inr (.load result) else .inl result)

/-! ## What the calls do -/

theorem charAt_eq_zero_iff (value : CString) (i : Nat) :
    charAt value i = 0 ↔ value.bytes.length ≤ i := by
  rw [charAt, List.getD_eq_getElem?_getD]
  by_cases hi : i < value.bytes.length
  · have hne : value.bytes[i] ≠ 0 := fun h => value.noNul (h ▸ List.getElem_mem hi)
    simp [hi, hne]
  · simpa [hi] using Nat.le_of_not_lt hi

theorem take_succ_charAt {value : CString} {i : Nat} (hi : i ≤ value.bytes.length) :
    value.bytes.take i ++ [charAt value i] = (value.bytes ++ [0]).take (i + 1) := by
  rw [List.take_add_one, List.take_append_of_le_length hi, charAt,
    List.getD_eq_getElem?_getD]
  rcases Nat.lt_or_eq_of_le hi with hlt | rfl
  · simp [List.getElem?_append_left hlt, hlt]
  · simp

def WriteAt.value : WriteAt → CString
  | .store value _ => value
  | .advance value _ => value

/-- The part of the message in front of a call of `write` is in the buffer. -/
def Writing (r : Ring UInt8 1024) : WriteAt → Prop
  | .store value i => i ≤ value.bytes.length ∧ r.Pending (value.bytes.take i)
  | .advance value i =>
      i ≤ value.bytes.length ∧ r.advanceWrite.Pending ((value.bytes ++ [0]).take (i + 1))

theorem Writing.start {r : Ring UInt8 1024} (h : r.Pending []) (value : CString) :
    Writing r (.store value 0) :=
  ⟨Nat.zero_le _, by simpa using h⟩

/-- The call goes on, or the message lies in the buffer with its terminator. -/
theorem Writing.step {r : Ring UInt8 1024} {w : WriteAt} (h : Writing r w) :
    match writeStep w r with
    | (r', some w') => w'.value = w.value ∧ Writing r' w'
    | (r', none) => r'.Pending (w.value.bytes ++ [0]) := by
  cases w with
  | store value i =>
      obtain ⟨hi, hpend⟩ := h
      refine ⟨rfl, hi, ?_⟩
      rw [← take_succ_charAt hi]
      exact hpend.put _
  | advance value i =>
      obtain ⟨hi, hpend⟩ := h
      simp only [writeStep]
      by_cases h0 : charAt value i = 0
      · have hlen : i = value.bytes.length :=
          Nat.le_antisymm hi ((charAt_eq_zero_iff value i).mp h0)
        rw [if_pos h0]
        rwa [hlen, List.take_of_length_le (by simp)] at hpend
      · have hlt : i < value.bytes.length := by
          rw [charAt_eq_zero_iff] at h0
          omega
        rw [if_neg h0]
        refine ⟨rfl, hlt, ?_⟩
        rwa [List.take_append_of_le_length hlt] at hpend

/-- A call of `read` has read the front of `m`, and the rest is pending. -/
def Reading (r : Ring UInt8 1024) (m : Bytes) : ReadAt → Prop
  | .load result => ∃ rest, result ++ rest = m ∧ r.Pending (rest ++ [0])
  | .advance result true => ∃ rest, result ++ rest = m ∧ r.advanceRead.Pending (rest ++ [0])
  | .advance result false => result = m ∧ r.advanceRead.Pending []

/-- The call goes on, or it returns the message and nothing is pending. -/
theorem Reading.step {r : Ring UInt8 1024} {m : Bytes} {a : ReadAt} (h : Reading r m a)
    (hnul : 0 ∉ m) (hlen : m.length < 1024) :
    match readStep a r with
    | (r', .inr a') => Reading r' m a'
    | (r', .inl result) => result = m ∧ r'.Pending [] := by
  cases a with
  | load result =>
      obtain ⟨rest, rfl, hpend⟩ := h
      cases rest with
      | nil =>
          obtain ⟨hload, hpend⟩ := hpend.take (by simp)
          simpa [readStep, hload, Reading] using hpend
      | cons c rest =>
          obtain ⟨hload, hpend⟩ := hpend.take (by simp at hlen ⊢; omega)
          have hc : c ≠ 0 := by
            rintro rfl
            simp at hnul
          simp only [readStep, hload, if_pos hc, Reading]
          exact ⟨rest, by simp, hpend⟩
  | advance result more =>
      cases more with
      | true => exact h
      | false => exact h

end DistributedAscii.Simulation
