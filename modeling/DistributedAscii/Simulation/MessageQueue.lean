import DistributedAscii.Lib.Runs
import DistributedAscii.Simulation.SharedMemory

/-!
# Simulation — the shared memory is a queue

`SharedMemory::write` and `SharedMemory::read` as whole calls, with nobody in
between (`write_of_steps`, `read_of_steps`). What has been written and not
yet read lies in the buffer, message behind message, each with its
terminator. As long as that is not more than the buffer holds, the messages
come out as they went in, whatever else has been left in the cells.
-/

namespace DistributedAscii.Simulation

open Lib Lib.Runs

namespace SharedMemory

/-- The loop of `write`, and the terminator. -/
def write (value : CString) (m : SharedMemory) : SharedMemory :=
  { m with ring := (value.bytes.foldl Ring.put m.ring).put 0 }

/-- The loop of `read`, as long as it looks at `n` cells at most. -/
def readLoop : Nat → Ring UInt8 1024 → Bytes → Option (Bytes × Ring UInt8 1024)
  | 0, _, _ => none
  | n + 1, r, result =>
      if r.load ≠ 0 then readLoop n r.advanceRead (result ++ [r.load])
      else some (result, r.advanceRead)

/-- `none`: the loop has come round to where it began, and does not end
(`readLoop_forever`). -/
def read (m : SharedMemory) : Option (Bytes × SharedMemory) :=
  (readLoop 1024 m.ring []).map fun r => (r.1, { m with ring := r.2 })

end SharedMemory

open SharedMemory

/-! ## The loops, step by step -/

def WriteAt.run : Nat → WriteAt → Ring UInt8 1024 → Option (Ring UInt8 1024)
  | 0, _, _ => none
  | n + 1, w, r =>
      match writeStep w r with
      | (r', none) => some r'
      | (r', some w') => WriteAt.run n w' r'

def ReadAt.run : Nat → ReadAt → Ring UInt8 1024 → Option (Bytes × Ring UInt8 1024)
  | 0, _, _ => none
  | n + 1, a, r =>
      match readStep a r with
      | (r', .inl result) => some (result, r')
      | (r', .inr a') => ReadAt.run n a' r'

theorem write_from (value : CString) {i n : Nat} (hi : i + n = value.bytes.length)
    (r : Ring UInt8 1024) : WriteAt.run (2 * (n + 1)) (.store value i) r =
      some (((value.bytes.drop i).foldl Ring.put r).put 0) := by
  induction n generalizing i r with
  | zero =>
      have hend : charAt value i = 0 := (charAt_eq_zero_iff value i).mpr (by omega)
      simp [WriteAt.run, writeStep, hend,
        List.drop_of_length_le (by omega : value.bytes.length ≤ i), Ring.put]
  | succ n ih =>
      have hmore : charAt value i ≠ 0 := by
        rw [ne_eq, charAt_eq_zero_iff]
        omega
      have hlt : i < value.bytes.length := by omega
      have hchar : charAt value i = value.bytes[i] := by simp [charAt, hlt]
      rw [List.drop_eq_getElem_cons hlt, List.foldl_cons, ← hchar, ← ih (by omega)]
      simp [WriteAt.run, writeStep, hmore, Ring.put, Nat.mul_add]

/-- A `write` that nobody interrupts. -/
theorem write_of_steps (value : CString) (m : SharedMemory) :
    WriteAt.run (2 * (value.bytes.length + 1)) (.store value 0) m.ring =
      some (m.write value).ring :=
  write_from value (Nat.zero_add _) m.ring

/-- A `read` that nobody interrupts. -/
theorem read_of_steps (n : Nat) (r : Ring UInt8 1024) (result : Bytes) :
    ReadAt.run (2 * n) (.load result) r = readLoop n r result := by
  induction n generalizing r result with
  | zero => rfl
  | succ n ih =>
      by_cases h : r.load = 0
      · simp [ReadAt.run, readStep, readLoop, h, Nat.mul_add]
      · simp [ReadAt.run, readStep, readLoop, h, Nat.mul_add, ih]

/-- The loop of `read` ends at the first NUL. -/
theorem readLoop_eq_none {n : Nat} {r : Ring UInt8 1024} {result : Bytes} :
    readLoop n r result = none ↔ ∀ i < n, r.buffer (Ring.cell r.readIndex i) ≠ 0 := by
  induction n generalizing r result with
  | zero => simp [readLoop]
  | succ n ih =>
      have hnext : ∀ i, Ring.cell (r.readIndex + 1) i = Ring.cell r.readIndex (i + 1) := by
        intro i
        rw [← Ring.cell_one, Ring.cell_add, Nat.add_comm]
      have hfirst : r.load = r.buffer (Ring.cell r.readIndex 0) := by
        rw [Ring.cell_zero, Ring.load]
      rw [readLoop, Nat.forall_lt_succ_left, ← hfirst]
      by_cases h : r.load = 0
      · simp [h]
      · simp [h, ih, Ring.advanceRead, hnext]

/-- What is not found in 1024 cells is not there. -/
theorem readLoop_forever {r : Ring UInt8 1024} {result : Bytes}
    (h : readLoop 1024 r result = none) (n : Nat) : readLoop n r result = none := by
  rw [readLoop_eq_none] at h ⊢
  intro i _
  -- the later cells are the first 1024 again
  have hround : Ring.cell r.readIndex i = Ring.cell r.readIndex (i % 1024) := by
    apply Fin.ext
    simp [Ring.cell, Fin.val_add]
  rw [hround]
  exact h _ (Nat.mod_lt _ (by decide))

/-! ## The messages in the buffer -/

/-- The characters of some messages, with their terminators. -/
def text (messages : List CString) : Bytes :=
  messages.flatMap fun value => value.bytes ++ [0]

theorem text_snoc (messages : List CString) (value : CString) :
    text (messages ++ [value]) = text messages ++ value.bytes ++ [0] := by
  simp [text]

namespace SharedMemory

/-- The messages that are not yet read. -/
structure Holds (m : SharedMemory) (unread : List CString) : Prop where
  pending : m.ring.Pending (text unread)
  fits : (text unread).length ≤ 1024

variable {m : SharedMemory} {unread : List CString} {value : CString}

theorem holds_init (buffer : Fin 1024 → UInt8) : (init buffer).Holds [] :=
  ⟨Ring.pending_nil_iff.mpr rfl, by simp [text]⟩

/-- `write` is an enqueue. -/
theorem Holds.write (h : m.Holds unread) (hfits : (text (unread ++ [value])).length ≤ 1024) :
    (m.write value).Holds (unread ++ [value]) := by
  refine ⟨?_, hfits⟩
  rw [text_snoc]
  exact (h.pending.putAll value.bytes).put 0

/-- The loop takes the characters in front of the terminator. -/
theorem readLoop_message {message rest : Bytes} {r : Ring UInt8 1024} {n : Nat}
    (h : r.Pending (message ++ 0 :: rest)) (hnul : 0 ∉ message) (hn : message.length < n)
    (hfits : (message ++ 0 :: rest).length ≤ 1024) (result : Bytes) :
    ∃ r', readLoop n r result = some (result ++ message, r') ∧ r'.Pending rest := by
  induction message generalizing r n result with
  | nil =>
      obtain ⟨n, rfl⟩ := Nat.exists_eq_succ_of_ne_zero hn.ne'
      obtain ⟨hload, hrest⟩ := h.take (by simp at hfits; omega)
      exact ⟨r.advanceRead, by simp [readLoop, hload], hrest⟩
  | cons c message ih =>
      obtain ⟨n, rfl⟩ := Nat.exists_eq_succ_of_ne_zero (by omega : n ≠ 0)
      obtain ⟨hload, hrest⟩ := h.take (by simp at hfits ⊢; omega)
      obtain ⟨hc, hmessage⟩ := not_or.mp (mt List.mem_cons.mpr hnul)
      obtain ⟨r', hloop, hpending⟩ := ih hrest hmessage (by simpa using hn)
        (by simp at hfits ⊢; omega) (result ++ [c])
      refine ⟨r', ?_, hpending⟩
      rw [readLoop, hload, if_pos (Ne.symm hc), hloop]
      simp

/-- `read` is a dequeue. -/
theorem Holds.read (h : m.Holds (value :: unread)) :
    ∃ m', m.read = some (value.bytes, m') ∧ m'.Holds unread := by
  have htext : text (value :: unread) = value.bytes ++ 0 :: text unread := by simp [text]
  obtain ⟨hpending, hfits⟩ := h
  rw [htext] at hpending hfits
  have hlength := hfits
  rw [List.length_append, List.length_cons] at hlength
  obtain ⟨r', hloop, hrest⟩ :=
    readLoop_message (n := 1024) hpending value.noNul (by omega) hfits []
  refine ⟨{ m with ring := r' }, ?_, hrest, by omega⟩
  rw [SharedMemory.read, hloop]
  rfl

/-- The indices meet where nothing is unread, and where nothing is free. -/
theorem Holds.indices (h : m.Holds unread) : m.ring.readIndex = m.ring.writeIndex ↔
    (text unread).length = 0 ∨ (text unread).length = 1024 := by
  rw [h.pending.write, eq_comm, Ring.cell_eq_self_iff]
  have hfits := h.fits
  omega

end SharedMemory

/-! ## Sequences of calls -/

inductive Call where
  | write (value : CString)
  | read
deriving DecidableEq

/-- The memory, and what the calls of `read` have returned. -/
structure Traffic where
  memory : SharedMemory
  returned : List Bytes

namespace Traffic

def start (buffer : Fin 1024 → UInt8) : Traffic where
  memory := .init buffer
  returned := []

def step (s : Traffic) : Call → Option Traffic
  | .write value => some { s with memory := s.memory.write value }
  | .read => s.memory.read.map fun r => ⟨r.2, s.returned ++ [r.1]⟩

/-- The strings of the calls of `write`. -/
def written (calls : List Call) : List CString :=
  calls.filterMap fun
    | .write value => some value
    | .read => none

/-- The number of calls of `read`. -/
def reads (calls : List Call) : Nat :=
  calls.count .read

def unread (calls : List Call) : List CString :=
  (written calls).drop (reads calls)

/-- `read` is called only when a message is there, and what is unread fits
the buffer at every moment. -/
structure Orderly (calls : List Call) : Prop where
  read : ∀ front, front ++ [.read] <+: calls → unread front ≠ []
  fits : ∀ front, front <+: calls → (text (unread front)).length ≤ 1024

/-- The calls have returned the strings that were written first, and the
memory holds the others. -/
structure Queued (s : Traffic) (calls : List Call) : Prop where
  returned : s.returned = ((written calls).take (reads calls)).map (·.bytes)
  holds : s.memory.Holds (unread calls)
  reads_le : reads calls ≤ (written calls).length

theorem Queued.write {s : Traffic} {calls : List Call} (h : s.Queued calls) {value : CString}
    (hfits : (text (unread (calls ++ [.write value]))).length ≤ 1024) :
    Queued { s with memory := s.memory.write value } (calls ++ [.write value]) := by
  have hwritten : written (calls ++ [.write value]) = written calls ++ [value] := by
    simp [written]
  have hreads : reads (calls ++ [.write value]) = reads calls := by simp [reads]
  have hunread : unread (calls ++ [.write value]) = unread calls ++ [value] := by
    rw [unread, hwritten, hreads, List.drop_append_of_le_length h.reads_le, unread]
  constructor
  · rw [hwritten, hreads, List.take_append_of_le_length h.reads_le]
    exact h.returned
  · rw [hunread] at hfits ⊢
    exact h.holds.write hfits
  · rw [hwritten, hreads, List.length_append]
    exact h.reads_le.trans (Nat.le_add_right ..)

theorem Queued.read {s : Traffic} {calls : List Call} (h : s.Queued calls)
    (hsome : unread calls ≠ []) :
    ∃ s', s.step .read = some s' ∧ s'.Queued (calls ++ [.read]) := by
  have hlt : reads calls < (written calls).length := by
    by_contra hle
    exact hsome (List.drop_of_length_le (Nat.le_of_not_lt hle))
  have hunread : unread calls = (written calls)[reads calls] ::
      (written calls).drop (reads calls + 1) := List.drop_eq_getElem_cons hlt
  obtain ⟨m', hread, hholds⟩ := (hunread ▸ h.holds).read
  have hwritten : written (calls ++ [.read]) = written calls := by simp [written]
  have hreads : reads (calls ++ [.read]) = reads calls + 1 := by simp [reads]
  refine ⟨_, by rw [step, hread]; rfl, ?_, ?_, ?_⟩
  · rw [hwritten, hreads, List.take_add_one, List.map_append, ← h.returned,
      List.getElem?_eq_getElem hlt]
    rfl
  · rw [unread, hwritten, hreads]
    exact hholds
  · rw [hwritten, hreads]
    exact hlt

theorem queued_of_orderly (buffer : Fin 1024 → UInt8) {calls : List Call} (h : Orderly calls) :
    ∀ front, front <+: calls →
      ∃ s, exec step (start buffer) front = some s ∧ s.Queued front := by
  refine prefix_induction ?_ ?_
  · exact ⟨start buffer, rfl, rfl, SharedMemory.holds_init buffer, Nat.le_refl _⟩
  · rintro front call hfront ⟨s, hexec, hqueued⟩
    rw [exec_snoc, hexec, Option.bind_some]
    cases call with
    | write value => exact ⟨_, rfl, hqueued.write (h.fits _ hfront)⟩
    | read => exact hqueued.read (h.read _ hfront)

/-- **The circular buffer is a queue of strings**: the `k`-th `read` returns
the string of the `k`-th `write`, and the indices meet exactly at 0 and at
1024 unread characters. -/
theorem queue (buffer : Fin 1024 → UInt8) (calls : List Call) (h : Orderly calls) :
    ∃ s, exec step (start buffer) calls = some s ∧
      s.returned = ((written calls).take (reads calls)).map (·.bytes) ∧
      (s.memory.ring.readIndex = s.memory.ring.writeIndex ↔
        (text (unread calls)).length = 0 ∨ (text (unread calls)).length = 1024) := by
  obtain ⟨s, hexec, hqueued⟩ := queued_of_orderly buffer h calls (List.prefix_refl _)
  exact ⟨s, hexec, hqueued.returned, hqueued.holds.indices⟩

/-- Two messages, the second one empty, and one of them is read. -/
def twoMessages : List Call :=
  [.write ⟨[97, 98], by decide⟩, .write ⟨[], by decide⟩, .read]

theorem queue_twoMessages :
    ∃ s, exec step (start fun _ => 7) twoMessages = some s ∧ s.returned = [[97, 98]] ∧
      (s.memory.ring.readIndex = s.memory.ring.writeIndex ↔
        (text (unread twoMessages)).length = 0 ∨ (text (unread twoMessages)).length = 1024) := by
  have hread : ∀ calls ∈ twoMessages.inits, calls.getLast? = some .read →
      unread calls.dropLast ≠ [] := by decide
  have hfits : ∀ calls ∈ twoMessages.inits, (text (unread calls)).length ≤ 1024 := by decide
  refine queue (fun _ => 7) twoMessages ⟨fun front hfront => ?_, fun front hfront => ?_⟩
  · simpa using hread _ ((List.mem_inits ..).mpr hfront)
  · exact hfits _ ((List.mem_inits ..).mpr hfront)

end Traffic

end DistributedAscii.Simulation
