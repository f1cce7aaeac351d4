import DistributedAscii.Simulation.Conversation

/-!
# Simulation — the hand-off of the buffer

Four kinds of message share one buffer without a lock. Since one of the
threads is awake at a time, the buffer has one user at a time, it is empty
when a write starts, and what is read is what was written last, to the one
who reads it.
-/

namespace DistributedAscii.Simulation

open FileSystem Lib Lib.Runs

/-! ## The steps at the buffer -/

/-- The thread is inside `write` or `read`. -/
def Places.touches (p : Places) : Party → Bool
  | .client =>
      match p.client with
      | .write _ | .read _ => true
      | _ => false
  | .tenedor =>
      match p.tenedor with
      | .writeServer _ _ | .readServer _ _ | .writeClient _ | .readClient _ => true
      | _ => false
  | .server =>
      match p.server with
      | .read _ | .write _ => true
      | _ => false

/-- The call of `write` that the thread is in. -/
def Places.writeCall (p : Places) : Party → Option WriteAt
  | .client =>
      match p.client with
      | .write call => some call
      | _ => none
  | .tenedor =>
      match p.tenedor with
      | .writeServer _ call | .writeClient call => some call
      | _ => none
  | .server =>
      match p.server with
      | .write call => some call
      | _ => none

/-- The thread has called `write` and stored nothing yet. -/
def Places.startsWrite (p : Places) (party : Party) : Prop :=
  ∃ value, p.writeCall party = some (.store value 0)

/-- A thread that is at the buffer, and no other one. -/
def Places.Alone (p : Places) (party : Party) : Prop :=
  ∀ q, p.touches q = true → q = party

namespace Hop

theorem alone_writing (h : Hop) (call : WriteAt) : (h.writing call).Alone h.writer := by
  intro q
  rcases h with _ | (_ | _) | (_ | _) | _ <;> cases q <;>
    simp [writing, Places.touches, writer, Exchange.client]

theorem alone_reading (h : Hop) (call : ReadAt) : (h.reading call).Alone h.reader := by
  intro q
  rcases h with _ | (_ | _) | (_ | _) | _ <;> cases q <;>
    simp [reading, Places.touches, reader, Exchange.client]

theorem alone_signalling (h : Hop) : h.signalling.Alone h.writer := by
  intro q
  rcases h with _ | (_ | _) | (_ | _) | _ <;> cases q <;>
    simp [signalling, Places.touches, Exchange.client]

theorem alone_posted (h : Hop) : h.posted.Alone h.reader := by
  intro q
  rcases h with _ | (_ | _) | (_ | _) | _ <;> cases q <;>
    simp [posted, Places.touches, Exchange.client]

theorem alone_woken (h : Hop) : h.woken.Alone h.reader := by
  intro q
  rcases h with _ | (_ | _) | (_ | _) | _ <;> cases q <;>
    simp [woken, reading, Places.touches, reader, Exchange.client]

theorem writeCall_writing (h : Hop) (call : WriteAt) (q : Party) :
    (h.writing call).writeCall q = if q = h.writer then some call else none := by
  rcases h with _ | (_ | _) | (_ | _) | _ <;> cases q <;>
    simp [writing, Places.writeCall, writer, Exchange.client]

end Hop

variable {s : State}

theorem Moment.semaphore_le {p : Places} {posted : Option Party} {finished : Bool}
    {questions : List (Party × Party)} {last : Option Message}
    (h : Moment s p posted finished questions last) (q : Party) :
    s.memory.semaphore q ≤ 1 := by
  rw [h.semaphore q]
  split <;> simp

/-- One thread at most is at the buffer. -/
theorem Phase.alone (h : Phase s) : ∃ party, s.places.Alone party := by
  cases h with
  | writing h call at_ _ => exact ⟨_, at_.places ▸ h.alone_writing call⟩
  | signalling h m at_ _ => exact ⟨_, at_.places ▸ h.alone_signalling⟩
  | posted h m at_ _ => exact ⟨_, at_.places ▸ h.alone_posted⟩
  | woken h m at_ _ => exact ⟨_, at_.places ▸ h.alone_woken⟩
  | reading h m call at_ _ => exact ⟨_, at_.places ▸ h.alone_reading call⟩
  | thinking x request fuel at_ _ =>
      refine ⟨.server, ?_⟩
      intro q
      rw [at_.places]
      cases x <;> cases q <;> simp [Simulation.thinking, Places.touches, Exchange.client]
  | listing at_ _ | listed at_ _ | prompt at_ _ =>
      refine ⟨.client, ?_⟩
      intro q
      rw [at_.places]
      cases q <;> simp [Simulation.listing, Simulation.listed, Simulation.prompt, Places.touches]
  | leaving l at_ =>
      refine ⟨.client, ?_⟩
      intro q
      rw [at_.places]
      cases l <;> cases q <;> simp [Leaving.places, Places.touches]

theorem Phase.semaphore_le (h : Phase s) (q : Party) : s.memory.semaphore q ≤ 1 := by
  cases h with
  | writing _ _ at_ _ | signalling _ _ at_ _ | posted _ _ at_ _ | woken _ _ at_ _
  | reading _ _ _ at_ _ | thinking _ _ _ at_ _ | listing at_ _ | listed at_ _ | prompt at_ _
  | leaving _ at_ => exact at_.semaphore_le q

theorem Phase.trace (h : Phase s) :
    (openQuestions s.trace).isSome ∧ Heard s.trace ∧ Routed s.trace := by
  cases h with
  | writing _ _ at_ _ | signalling _ _ at_ _ | posted _ _ at_ _ | woken _ _ at_ _
  | reading _ _ _ at_ _ | thinking _ _ _ at_ _ | listing at_ _ | listed at_ _ | prompt at_ _
  | leaving _ at_ => exact ⟨by simp [at_.questions], at_.heard, at_.routed⟩

/-- The buffer is empty when a write starts. -/
theorem Phase.startsWrite (h : Phase s) {party : Party} (hs : s.places.startsWrite party) :
    s.memory.ring.readIndex = s.memory.ring.writeIndex := by
  obtain ⟨value, hs⟩ := hs
  cases h with
  | writing h call at_ ring =>
      rw [at_.places, h.writeCall_writing] at hs
      split at hs
      · cases hs
        obtain ⟨-, hpend⟩ := ring
        exact Ring.pending_nil_iff.mp (by simpa using hpend)
      · cases hs
  | signalling h _ at_ _ | posted h _ at_ _ | woken h _ at_ _ | reading h _ _ at_ _ =>
      rw [at_.places] at hs
      rcases h with _ | (_ | _) | (_ | _) | _ <;> cases party <;> cases hs
  | thinking x _ _ at_ _ =>
      rw [at_.places] at hs
      cases x <;> cases party <;> cases hs
  | listing at_ _ | listed at_ _ | prompt at_ _ =>
      rw [at_.places] at hs
      cases party <;> cases hs
  | leaving l at_ =>
      rw [at_.places] at hs
      cases l <;> cases party <;> cases hs

/-! ## The hand-off -/

/-- **Safe hand-off.** Whatever the users type and however the steps of the
threads are interleaved: one thread at most is at the buffer, no semaphore
exceeds 1, a write starts on an empty buffer, and a message that fits is
read as it was written, by the one it was written for. Questions only go
from the client to the tenedor and from there to the server, and an answer
goes to the one who asked last. -/
theorem handoff_safe {disk : Disk} {buffer : Fin 1024 → UInt8} {events : List Event} {s : State}
    (hrun : exec (step disk) (start buffer) events = some s)
    (hshort : ∀ m, .wrote m ∈ s.trace → m.text.length ≤ 1023) :
    (∀ p q, s.places.touches p = true → s.places.touches q = true → p = q)
    ∧ (∀ p, s.memory.semaphore p ≤ 1)
    ∧ ((∃ p, s.places.startsWrite p) → s.memory.ring.readIndex = s.memory.ring.writeIndex)
    ∧ (∀ front reader writer text, front ++ [.got reader writer text] <+: s.trace →
      ∃ m, front.getLast? = some (.wrote m) ∧ m.writer = writer ∧ m.reader = reader
        ∧ text = m.text.bytes)
    ∧ Routed s.trace ∧ (openQuestions s.trace).isSome := by
  have hphase := phase_of_run hrun
  obtain ⟨hquestions, hheard, hrouted⟩ := hphase.trace
  refine ⟨?_, hphase.semaphore_le, ?_, ?_, hrouted, hquestions⟩
  · obtain ⟨party, halone⟩ := hphase.alone
    intro p q hp hq
    rw [halone p hp, halone q hq]
  · rintro ⟨p, hp⟩
    exact hphase.startsWrite hp
  · intro front reader writer text hfront
    obtain ⟨m, hlast, hwriter, hreader, rfl⟩ := hheard front reader writer text hfront
    refine ⟨m, hlast, hwriter, hreader, Ring.kept_of_lt ?_⟩
    have hmem : .wrote m ∈ s.trace :=
      hfront.subset (List.mem_append_left _ (List.mem_of_getLast? hlast))
    exact Nat.lt_succ_of_le (hshort m hmem)

/-- The first request of the tenedor has arrived at the server. -/
theorem handoff_safe_figures :
    ∃ s, exec (step []) (start fun _ => 0)
        (List.replicate 37 .tenedor ++ List.replicate 38 .server) = some s
      ∧ s.trace = [.wrote ⟨.request, .tenedor, .server, .ofBytes getFiguresProtocol⟩,
          .got .server .tenedor getFiguresProtocol]
      ∧ (∀ p, s.memory.semaphore p ≤ 1) := by
  have htrace : (exec (step []) (start fun _ => 0)
      (List.replicate 37 .tenedor ++ List.replicate 38 .server)).map State.trace
      = some [.wrote ⟨.request, .tenedor, .server, .ofBytes getFiguresProtocol⟩,
          .got .server .tenedor getFiguresProtocol] := by
    decide +kernel
  obtain ⟨s, hrun, htrace⟩ := Option.map_eq_some_iff.mp htrace
  obtain ⟨-, hsem, -⟩ := handoff_safe hrun (by
    intro m hm
    simp only [htrace, List.mem_cons, Action.wrote.injEq, reduceCtorEq, List.not_mem_nil,
      or_false] at hm
    subst hm
    decide)
  exact ⟨s, hrun, htrace, hsem⟩

end DistributedAscii.Simulation
