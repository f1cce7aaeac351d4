import DistributedAscii.Lib.Runs
import DistributedAscii.Simulation.Threads

/-!
# Simulation — the conversation

The three threads take turns: at every moment one message is on its way
from one thread to another (a `Hop`), or nobody has written. A message is
written, its reader is signalled, wakes up and reads it, and all that time
the two other threads wait. `Phase` lists these moments with the places of
the threads, the semaphores, the buffer and the trace; `Phase.step` is the
one case analysis over the program, everything else is read off from it.
-/

namespace DistributedAscii.Simulation

open FileSystem Lib Lib.Runs

/-! ## The abstract conversation -/

/-- The questions that nobody has answered yet, as pairs of the asker and
the asked, after one more entry; `none` if it answers anything but the last
of them. -/
def hear (questions : List (Party × Party)) : Action → Option (List (Party × Party))
  | .got .. => some questions
  | .wrote m =>
      match m.kind, questions with
      | .request, _ => some ((m.writer, m.reader) :: questions)
      | .answer, q :: rest => if q = (m.reader, m.writer) then some rest else none
      | .answer, [] => none

def openQuestions (trace : List Action) : Option (List (Party × Party)) :=
  trace.foldlM hear []

/-- The message that was written and not read. -/
def pending (trace : List Action) : Option Message :=
  match trace.getLast? with
  | some (.wrote m) => some m
  | _ => none

/-- Every read returns what is left of the message written last, which was
written for its reader by the one it listens to. -/
def Heard (trace : List Action) : Prop :=
  ∀ front reader writer text, front ++ [.got reader writer text] <+: trace →
    ∃ m, front.getLast? = some (.wrote m) ∧ m.writer = writer ∧ m.reader = reader
      ∧ text = Ring.kept 1024 m.text.bytes

/-- Questions go from the client to the tenedor and from there to the
server. -/
def Routed (trace : List Action) : Prop :=
  ∀ m, .wrote m ∈ trace → m.kind = .request →
    (m.writer = .client ∧ m.reader = .tenedor) ∨ (m.writer = .tenedor ∧ m.reader = .server)

theorem openQuestions_snoc (trace : List Action) (a : Action) :
    openQuestions (trace ++ [a])
      = (openQuestions trace).bind fun questions => hear questions a := by
  simp [openQuestions, List.foldlM_append]

@[simp] theorem pending_wrote (trace : List Action) (m : Message) :
    pending (trace ++ [.wrote m]) = some m := by
  simp [pending]

@[simp] theorem pending_got (trace : List Action) (reader writer : Party) (text : Bytes) :
    pending (trace ++ [.got reader writer text]) = none := by
  simp [pending]

theorem getLast?_of_pending {trace : List Action} {m : Message} (h : pending trace = some m) :
    trace.getLast? = some (.wrote m) := by
  unfold pending at h
  split at h
  · rename_i m' hlast
    cases h
    exact hlast
  · cases h

theorem Heard.wrote {trace : List Action} (h : Heard trace) (m : Message) :
    Heard (trace ++ [.wrote m]) := by
  intro front reader writer text hfront
  rcases List.prefix_concat_iff.mp hfront with heq | hfront
  · have := List.append_inj_right' heq rfl
    simp at this
  · exact h _ _ _ _ hfront

theorem Routed.wrote {trace : List Action} (h : Routed trace) {m : Message}
    (hm : m.kind = .request → (m.writer = .client ∧ m.reader = .tenedor)
      ∨ (m.writer = .tenedor ∧ m.reader = .server)) : Routed (trace ++ [.wrote m]) := by
  intro m' hm' hkind
  simp only [List.mem_append, List.mem_singleton, Action.wrote.injEq] at hm'
  rcases hm' with hm' | rfl
  · exact h m' hm' hkind
  · exact hm hkind

theorem Routed.got {trace : List Action} (h : Routed trace) (reader writer : Party)
    (text : Bytes) : Routed (trace ++ [.got reader writer text]) := by
  intro m hm
  exact h m (by simpa using hm)

theorem Heard.got {trace : List Action} (h : Heard trace) {m : Message}
    (hm : pending trace = some m) :
    Heard (trace ++ [.got m.reader m.writer (Ring.kept 1024 m.text.bytes)]) := by
  intro front reader writer text hfront
  rcases List.prefix_concat_iff.mp hfront with heq | hfront
  · obtain ⟨rfl, hlast⟩ := List.append_inj' heq rfl
    simp only [List.cons.injEq, Action.got.injEq, and_true] at hlast
    obtain ⟨rfl, rfl, rfl⟩ := hlast
    exact ⟨m, getLast?_of_pending hm, rfl, rfl, rfl⟩
  · exact h _ _ _ _ hfront

/-! ## Hops -/

/-- The ways of a message. -/
inductive Hop where
  | ask
  | request (e : Exchange)
  | reply (e : Exchange)
  | answer
deriving DecidableEq

namespace Hop

def writer : Hop → Party
  | .ask => .client
  | .request _ => .tenedor
  | .reply _ => .server
  | .answer => .tenedor

def reader : Hop → Party
  | .ask => .tenedor
  | .request _ => .server
  | .reply _ => .tenedor
  | .answer => .client

def kind : Hop → Kind
  | .ask => .request
  | .request _ => .request
  | .reply _ => .answer
  | .answer => .answer

def message (h : Hop) (text : CString) : Message :=
  ⟨h.kind, h.writer, h.reader, text⟩

end Hop

/-- What the client has asked while the tenedor talks to the server. -/
def Exchange.asked : Exchange → List (Party × Party)
  | .figures => []
  | .relay => [(.client, .tenedor)]

/-- The questions in front of a message. -/
def Hop.before : Hop → List (Party × Party)
  | .ask => []
  | .request e => e.asked
  | .reply e => (.tenedor, .server) :: e.asked
  | .answer => [(.client, .tenedor)]

/-- The questions behind it. -/
def Hop.after : Hop → List (Party × Party)
  | .ask => [(.client, .tenedor)]
  | .request e => (.tenedor, .server) :: e.asked
  | .reply e => e.asked
  | .answer => []

theorem Hop.hear_message (h : Hop) (text : CString) :
    hear h.before (.wrote (h.message text)) = some h.after := by
  cases h <;> rfl

/-! ## Places -/

structure Places where
  client : ClientAt
  tenedor : TenedorAt
  server : ServerAt

def State.places (s : State) : Places :=
  ⟨s.client, s.tenedor, s.server⟩

def State.moveTo (s : State) (p : Places) : State :=
  { s with client := p.client, tenedor := p.tenedor, server := p.server }

/-- Where the client waits while the tenedor talks to the server. -/
def Exchange.client : Exchange → ClientAt
  | .figures => .waitClient true
  | .relay => .waitClient false

namespace Hop

def writing : Hop → WriteAt → Places
  | .ask, call => ⟨.write call, .waitClient, .waitServer⟩
  | .request e, call => ⟨e.client, .writeServer e call, .waitServer⟩
  | .reply e, call => ⟨e.client, .waitServer e, .write call⟩
  | .answer, call => ⟨.waitClient false, .writeClient call, .waitServer⟩

def signalling : Hop → Places
  | .ask => ⟨.signalTenedor, .waitClient, .waitServer⟩
  | .request e => ⟨e.client, .signalServer e, .waitServer⟩
  | .reply e => ⟨e.client, .waitServer e, .signalTenedor⟩
  | .answer => ⟨.waitClient false, .signalClient, .waitServer⟩

/-- Everybody waits. -/
def posted : Hop → Places
  | .ask => ⟨.waitClient false, .waitClient, .waitServer⟩
  | .request e => ⟨e.client, .waitServer e, .waitServer⟩
  | .reply e => ⟨e.client, .waitServer e, .waitServer⟩
  | .answer => ⟨.waitClient false, .waitClient, .waitServer⟩

def reading : Hop → ReadAt → Places
  | .ask, call => ⟨.waitClient false, .readClient call, .waitServer⟩
  | .request e, call => ⟨e.client, .waitServer e, .read call⟩
  | .reply e, call => ⟨e.client, .readServer e call, .waitServer⟩
  | .answer, call => ⟨.read call, .waitClient, .waitServer⟩

/-- Behind the wait: the loops of the tenedor and the server look at
`finished` first. -/
def woken : Hop → Places
  | .ask => ⟨.waitClient false, .getFinished, .waitServer⟩
  | .request e => ⟨e.client, .waitServer e, .getFinished⟩
  | .reply e => (Hop.reply e).reading (.load [])
  | .answer => Hop.answer.reading (.load [])

end Hop

/-- The step of a thread. -/
def Party.event : Party → Event
  | .client => .client
  | .tenedor => .tenedor
  | .server => .server

/-- The only semaphore that may be positive. -/
def SharedMemory.Posted (m : SharedMemory) (posted : Option Party) : Prop :=
  ∀ p, m.semaphore p = if posted = some p then 1 else 0

/-- The client has the list and asks the user. -/
def prompt : Places :=
  ⟨.getline, .waitClient, .waitServer⟩

/-- The list of figures is known, and the client does not know yet. -/
def listing : Places :=
  ⟨.waitClient true, .signalClient, .waitServer⟩

def listed : Places :=
  ⟨.waitClient true, .waitClient, .waitServer⟩

/-- The server makes its answer. -/
def thinking (e : Exchange) (request : Bytes) (fuel : Nat) : Places :=
  ⟨e.client, .waitServer e, .answer request fuel⟩

/-- The way out, from the `exit` of the user on. -/
inductive Leaving where
  | setFinished
  | signalExit
  | posted
  | getFinished
  | gone
deriving DecidableEq

def Leaving.places : Leaving → Places
  | .setFinished => ⟨.setFinished, .waitClient, .waitServer⟩
  | .signalExit => ⟨.signalExit, .waitClient, .waitServer⟩
  | .posted => ⟨.returned, .waitClient, .waitServer⟩
  | .getFinished => ⟨.returned, .getFinished, .waitServer⟩
  | .gone => ⟨.returned, .returned, .waitServer⟩

/-- Where the threads are behind a message. -/
def Hop.next (serverFigures : ServerFigures) (text : Bytes) : Hop → Places
  | .ask =>
      match buildRequest serverFigures text with
      | .error response => Hop.answer.writing (.store (.ofBytes response) 0)
      | .ok question => (Hop.request .relay).writing (.store (.ofBytes question) 0)
  | .request e => thinking e text 0
  | .reply .figures => listing
  | .reply .relay => Hop.answer.writing (.store (.ofBytes (buildResponse text)) 0)
  | .answer => prompt

/-- The figures that the tenedor knows behind a message. -/
def Hop.figures (serverFigures : ServerFigures) (text : Bytes) : Hop → ServerFigures
  | .reply .figures => setServerFiguresByResponse serverFigures text
  | _ => serverFigures

/-- What the reader of a message does with it. -/
def State.receive (s : State) (text : Bytes) (h : Hop) : State :=
  { s with serverFigures := h.figures s.serverFigures text }.moveTo (h.next s.serverFigures text)

/-! ## Who waits -/

/-- The party is at a wait for its semaphore. -/
def Places.Waits (p : Places) : Party → Prop
  | .client => p.client = .waitClient false ∨ p.client = .waitClient true
  | .tenedor => p.tenedor = .waitClient ∨ ∃ e, p.tenedor = .waitServer e
  | .server => p.server = .waitServer

theorem Exchange.client_waits (e : Exchange) :
    e.client = .waitClient false ∨ e.client = .waitClient true := by
  cases e with
  | figures => exact .inr rfl
  | relay => exact .inl rfl

namespace Hop

variable (h : Hop) {q : Party}

theorem writing_waits (call : WriteAt) (hq : q ≠ h.writer) : (h.writing call).Waits q := by
  cases h <;> cases q <;>
    simp [Places.Waits, Hop.writing, Hop.writer, Exchange.client_waits] at hq ⊢

theorem signalling_waits (hq : q ≠ h.writer) : h.signalling.Waits q := by
  cases h <;> cases q <;>
    simp [Places.Waits, Hop.signalling, Hop.writer, Exchange.client_waits] at hq ⊢

theorem posted_waits : h.posted.Waits q := by
  cases h <;> cases q <;> simp [Places.Waits, Hop.posted, Exchange.client_waits]

theorem reading_waits (call : ReadAt) (hq : q ≠ h.reader) : (h.reading call).Waits q := by
  cases h <;> cases q <;>
    simp [Places.Waits, Hop.reading, Hop.reader, Exchange.client_waits] at hq ⊢

theorem woken_waits (hq : q ≠ h.reader) : h.woken.Waits q := by
  cases h <;> cases q <;>
    simp [Places.Waits, Hop.woken, Hop.reading, Hop.reader, Exchange.client_waits] at hq ⊢

end Hop

section Alone

variable (disk : Disk) {s : State} {p : Party}

theorem step_waits (hw : s.places.Waits p) (hq : s.memory.semaphore p = 0) :
    step disk s p.event = none := by
  have hwait : s.memory.wait p = none := by rw [SharedMemory.wait, if_pos hq]
  cases p with
  | client =>
      rcases hw with hw | hw <;> simp only [State.places] at hw <;>
        simp [step, clientStep, Party.event, hw, SharedMemory.waitClient, hwait]
  | tenedor =>
      rcases hw with hw | ⟨e, hw⟩ <;> simp only [State.places] at hw <;>
        simp [step, tenedorStep, Party.event, hw, SharedMemory.waitTenedor, hwait]
  | server =>
      simp only [Places.Waits, State.places] at hw
      simp [step, serverStep, Party.event, hw, SharedMemory.waitServer, hwait]

/-- When everybody else waits, and nobody for the user, only `p` can step. -/
theorem step_alone {places : Places} {posted : Option Party} (hp : s.places = places)
    (hothers : ∀ q, q ≠ p → places.Waits q) (hinput : places.client ≠ .getline)
    (hq : s.memory.Posted posted) (hposted : ∀ q, posted = some q → q = p) (e : Event) :
    step disk s e = if e = p.event then step disk s p.event else none := by
  subst hp
  split
  case isTrue he => rw [he]
  case isFalse he =>
    have hother : ∀ q : Party, e = q.event → step disk s e = none := by
      rintro q rfl
      have hqp : q ≠ p := fun hqp => he (hqp ▸ rfl)
      refine step_waits disk (hothers q hqp) ?_
      rw [hq q, if_neg fun hpost => hqp (hposted q hpost)]
    cases e with
    | input message =>
        have hclient : s.client ≠ .getline := hinput
        simp [step, inputStep, hclient]
    | client => exact hother .client rfl
    | tenedor => exact hother .tenedor rfl
    | server => exact hother .server rfl

end Alone

/-! ## The steps of the program, by moment -/

section Steps

variable (disk : Disk) {s : State}

/-- `write` goes on, or the message is logged and its reader will be
signalled. -/
theorem step_writing (h : Hop) {call : WriteAt} (hp : s.places = h.writing call)
    (hq : s.memory.Posted none) (e : Event) :
    step disk s e = if e = h.writer.event then
      some (match writeStep call s.memory.ring with
        | (ring, some call') => (s.setRing ring).moveTo (h.writing call')
        | (ring, none) =>
            ((s.setRing ring).log (.wrote (h.message call.value))).moveTo h.signalling)
      else none := by
  have hinput : (h.writing call).client ≠ .getline := by
    rcases h with _ | (_ | _) | (_ | _) | _ <;> simp [Hop.writing, Exchange.client]
  rw [step_alone disk hp (fun q => h.writing_waits call) hinput hq (by simp)]
  congr 1
  obtain ⟨m, c, t, v, f, tr⟩ := s
  rcases hw : writeStep call m.ring with ⟨ring, _ | call'⟩ <;> cases h <;>
    simp only [State.places, Hop.writing, Places.mk.injEq] at hp <;>
    obtain ⟨rfl, rfl, rfl⟩ := hp <;>
    simp [step, clientStep, tenedorStep, serverStep, Hop.writer, Party.event, hw, State.setRing,
      State.log, State.moveTo, Hop.writing, Hop.signalling, Hop.message, Hop.kind, Hop.reader]

theorem step_signalling (h : Hop) (hp : s.places = h.signalling) (hq : s.memory.Posted none)
    (e : Event) :
    step disk s e = if e = h.writer.event then
      some ({ s with memory := s.memory.signal h.reader }.moveTo h.posted) else none := by
  have hinput : h.signalling.client ≠ .getline := by
    rcases h with _ | (_ | _) | (_ | _) | _ <;> simp [Hop.signalling, Exchange.client]
  rw [step_alone disk hp (fun q => h.signalling_waits) hinput hq (by simp)]
  congr 1
  obtain ⟨m, c, t, v, f, tr⟩ := s
  cases h <;> simp only [State.places, Hop.signalling, Places.mk.injEq] at hp <;>
    obtain ⟨rfl, rfl, rfl⟩ := hp <;>
    simp [step, clientStep, tenedorStep, serverStep, Hop.writer, Party.event,
      SharedMemory.signalClient, SharedMemory.signalTenedor, SharedMemory.signalServer,
      State.moveTo, Hop.posted, Hop.reader]

theorem step_posted (h : Hop) (hp : s.places = h.posted)
    (hq : s.memory.Posted (some h.reader)) (e : Event) :
    step disk s e = if e = h.reader.event then
      some ({ s with memory := s.memory.decrement h.reader }.moveTo h.woken) else none := by
  have hinput : h.posted.client ≠ .getline := by
    rcases h with _ | (_ | _) | (_ | _) | _ <;> simp [Hop.posted, Exchange.client]
  rw [step_alone disk (p := h.reader) hp (fun q _ => h.posted_waits) hinput hq (by simp)]
  congr 1
  have hwait : s.memory.wait h.reader = some (s.memory.decrement h.reader) := by
    rw [SharedMemory.wait, hq h.reader]
    simp
  obtain ⟨m, c, t, v, f, tr⟩ := s
  cases h <;> simp only [State.places, Hop.posted, Places.mk.injEq] at hp <;>
    obtain ⟨rfl, rfl, rfl⟩ := hp <;>
    simp only [Hop.reader] at hwait <;>
    simp [step, clientStep, tenedorStep, serverStep, hwait, Party.event, SharedMemory.waitClient,
      SharedMemory.waitTenedor, SharedMemory.waitServer, State.moveTo, Hop.woken, Hop.reading,
      Hop.reader]

/-- The reader looks at `finished`, or has begun to read. -/
theorem step_woken (h : Hop) (hp : s.places = h.woken) (hw : h.woken ≠ h.reading (.load []))
    (hq : s.memory.Posted none) (hf : s.memory.finished = false) (e : Event) :
    step disk s e
      = if e = h.reader.event then some (s.moveTo (h.reading (.load []))) else none := by
  have hinput : h.woken.client ≠ .getline := by
    rcases h with _ | (_ | _) | (_ | _) | _ <;> simp [Hop.woken, Hop.reading, Exchange.client]
  rw [step_alone disk hp (fun q => h.woken_waits) hinput hq (by simp)]
  congr 1
  obtain ⟨m, c, t, v, f, tr⟩ := s
  have hf' : m.finished = false := hf
  cases h <;>
    simp only [State.places, Hop.woken, Places.mk.injEq, ne_eq, not_true_eq_false] at hp hw <;>
    obtain ⟨rfl, rfl, rfl⟩ := hp <;>
    simp [step, tenedorStep, serverStep, hf', Party.event, SharedMemory.getFinished, State.moveTo,
      Hop.reading, Hop.reader]

/-- `read` goes on, or the message is logged and dealt with. -/
theorem step_reading (h : Hop) {call : ReadAt} (hp : s.places = h.reading call)
    (hq : s.memory.Posted none) (e : Event) :
    step disk s e = if e = h.reader.event then
      some (match readStep call s.memory.ring with
        | (ring, .inr call') => (s.setRing ring).moveTo (h.reading call')
        | (ring, .inl text) =>
            ((s.setRing ring).log (.got h.reader h.writer text)).receive text h)
      else none := by
  have hinput : (h.reading call).client ≠ .getline := by
    rcases h with _ | (_ | _) | (_ | _) | _ <;> simp [Hop.reading, Exchange.client]
  rw [step_alone disk hp (fun q => h.reading_waits call) hinput hq (by simp)]
  congr 1
  obtain ⟨m, c, t, v, f, tr⟩ := s
  rcases hr : readStep call m.ring with ⟨ring, text | call'⟩ <;>
    rcases h with _ | (_ | _) | (_ | _) | _ <;>
    simp only [State.places, Hop.reading, Exchange.client, Places.mk.injEq] at hp <;>
    obtain ⟨rfl, rfl, rfl⟩ := hp <;>
    simp [step, clientStep, tenedorStep, serverStep, hr, Hop.writer, Party.event, State.setRing,
      State.log, State.moveTo, Hop.reading, Exchange.client, Hop.reader, State.receive, Hop.next,
      Hop.figures, thinking, listing, prompt, Hop.writing]
  -- only the request of the client is left, which may be refused
  cases hb : buildRequest f text <;> simp [TenedorAt.ofRequest, hb]

theorem thinking_waits {x : Exchange} {request : Bytes} {fuel : Nat} {q : Party}
    (hq : q ≠ .server) : (thinking x request fuel).Waits q := by
  cases q with
  | client => exact x.client_waits
  | tenedor => exact .inr ⟨x, rfl⟩
  | server => exact absurd rfl hq

theorem step_thinking {x : Exchange} {request : Bytes} {fuel : Nat}
    (hp : s.places = thinking x request fuel) (hq : s.memory.Posted none) (e : Event) :
    step disk s e = if e = .server then
      some (match buildAnswer fuel disk request with
        | none => s.moveTo (thinking x request (fuel + 1))
        | some response => s.moveTo ((Hop.reply x).writing (.store (.ofBytes response) 0)))
      else none := by
  have hinput : (thinking x request fuel).client ≠ .getline := by
    cases x <;> simp [thinking, Exchange.client]
  refine (step_alone disk (p := .server) hp (fun q => thinking_waits) hinput hq (by simp) e).trans
    ?_
  congr 1
  obtain ⟨m, c, t, v, f, tr⟩ := s
  simp only [State.places, thinking, Places.mk.injEq] at hp
  obtain ⟨rfl, rfl, rfl⟩ := hp
  cases hb : buildAnswer fuel disk request <;>
    simp [step, serverStep, Party.event, hb, State.moveTo, thinking, Hop.writing]

theorem step_listing (hp : s.places = listing) (hq : s.memory.Posted none) (e : Event) :
    step disk s e = if e = .tenedor then
      some ({ s with memory := s.memory.signal .client }.moveTo listed) else none := by
  have hwaits : ∀ q, q ≠ .tenedor → listing.Waits q := by
    intro q hq
    cases q <;> simp [Places.Waits, listing] at hq ⊢
  refine (step_alone disk (p := .tenedor) hp hwaits (by simp [listing]) hq (by simp) e).trans ?_
  congr 1
  obtain ⟨m, c, t, v, f, tr⟩ := s
  simp only [State.places, listing, Places.mk.injEq] at hp
  obtain ⟨rfl, rfl, rfl⟩ := hp
  simp [step, tenedorStep, Party.event, SharedMemory.signalClient, State.moveTo, listed]

theorem step_listed (hp : s.places = listed) (hq : s.memory.Posted (some .client)) (e : Event) :
    step disk s e = if e = .client then
      some ({ s with memory := s.memory.decrement .client }.moveTo prompt) else none := by
  have hwaits : ∀ q, q ≠ .client → listed.Waits q := by
    intro q hq
    cases q <;> simp [Places.Waits, listed] at hq ⊢
  refine (step_alone disk (p := .client) hp hwaits (by simp [listed]) hq (by simp) e).trans ?_
  congr 1
  have hwait : s.memory.wait .client = some (s.memory.decrement .client) := by
    rw [SharedMemory.wait, hq .client]
    simp
  obtain ⟨m, c, t, v, f, tr⟩ := s
  simp only [State.places, listed, Places.mk.injEq] at hp
  obtain ⟨rfl, rfl, rfl⟩ := hp
  simp only at hwait
  simp [step, clientStep, Party.event, SharedMemory.waitClient, hwait, State.moveTo, prompt]

/-- What the user types to leave. -/
def isExit (message : Bytes) : Bool :=
  message = bytes "exit" || message = bytes "Exit"

/-- At the prompt everything waits for the user. -/
theorem step_prompt (hp : s.places = prompt) (hq : s.memory.Posted none) (e : Event) :
    step disk s e = match e with
      | .input message =>
          some (if isExit message then s.moveTo Leaving.setFinished.places
            else s.moveTo (Hop.ask.writing (.store (.ofBytes message) 0)))
      | _ => none := by
  obtain ⟨m, c, t, v, f, tr⟩ := s
  have hq' : ∀ p, m.semaphore p = 0 := by simpa [SharedMemory.Posted] using hq
  simp only [State.places, prompt, Places.mk.injEq] at hp
  obtain ⟨rfl, rfl, rfl⟩ := hp
  cases e with
  | input message =>
      by_cases hm : message = bytes "exit" ∨ message = bytes "Exit" <;>
        simp [step, inputStep, isExit, hm, State.moveTo, Leaving.places, Hop.writing]
  | _ =>
      simp [step, clientStep, tenedorStep, serverStep, hq',
        SharedMemory.waitTenedor, SharedMemory.waitServer, SharedMemory.wait]

/-- The semaphore that is positive on the way out. -/
def Leaving.semaphore : Leaving → Option Party
  | .posted => some .tenedor
  | _ => none

def Leaving.finished : Leaving → Bool
  | .setFinished => false
  | _ => true

/-- One step on the way out. -/
def State.leave (s : State) : Leaving → Option (Party × State)
  | .setFinished => some (.client,
      { s with memory := s.memory.setFinished true }.moveTo Leaving.signalExit.places)
  | .signalExit => some (.client,
      { s with memory := s.memory.signal .tenedor }.moveTo Leaving.posted.places)
  | .posted => some (.tenedor,
      { s with memory := s.memory.decrement .tenedor }.moveTo Leaving.getFinished.places)
  | .getFinished => some (.tenedor, s.moveTo Leaving.gone.places)
  | .gone => none

theorem step_leaving (l : Leaving) (hp : s.places = l.places)
    (hq : s.memory.Posted l.semaphore) (hf : s.memory.finished = l.finished) (e : Event) :
    step disk s e = match s.leave l with
      | some (p, s') => if e = p.event then some s' else none
      | none => none := by
  obtain ⟨m, c, t, v, f, tr⟩ := s
  have hq' : ∀ p, m.semaphore p = if l.semaphore = some p then 1 else 0 := hq
  have hf' : m.finished = l.finished := hf
  cases l <;> simp only [State.places, Leaving.places, Places.mk.injEq] at hp <;>
    obtain ⟨rfl, rfl, rfl⟩ := hp <;> cases e <;>
    simp [step, inputStep, clientStep, tenedorStep, serverStep, hq', hf', Party.event,
      SharedMemory.waitTenedor, SharedMemory.waitServer, SharedMemory.signalTenedor,
      SharedMemory.getFinished, SharedMemory.wait, State.moveTo, State.leave, Leaving.places,
      Leaving.semaphore, Leaving.finished]

end Steps

/-! ## The moments of a run -/

/-- What the moments have in common. -/
structure Moment (s : State) (places : Places) (posted : Option Party) (finished : Bool)
    (questions : List (Party × Party)) (last : Option Message) : Prop where
  places : s.places = places
  semaphore : s.memory.Posted posted
  finished : s.memory.finished = finished
  questions : openQuestions s.trace = some questions
  last : pending s.trace = last
  heard : Heard s.trace
  routed : Routed s.trace

namespace Moment

variable {s : State} {p p' : Places} {posted posted' : Option Party} {finished finished' : Bool}
  {questions : List (Party × Party)} {last : Option Message}

/-- The threads move on, and nothing is logged. -/
theorem next (h : Moment s p posted finished questions last) {t : State} (hp : t.places = p')
    (hs : t.memory.Posted posted') (hf : t.memory.finished = finished')
    (ht : t.trace = s.trace) : Moment t p' posted' finished' questions last where
  places := hp
  semaphore := hs
  finished := hf
  questions := ht ▸ h.questions
  last := ht ▸ h.last
  heard := ht ▸ h.heard
  routed := ht ▸ h.routed

/-- A message has been written. -/
theorem wrote {hop : Hop} (h : Moment s p posted finished hop.before last) {t : State}
    (m : CString) (hp : t.places = p') (hs : t.memory.Posted posted)
    (hf : t.memory.finished = finished) (ht : t.trace = s.trace ++ [.wrote (hop.message m)]) :
    Moment t p' posted finished hop.after (some (hop.message m)) where
  places := hp
  semaphore := hs
  finished := hf
  questions := by simp [ht, openQuestions_snoc, h.questions, hop.hear_message]
  last := by simp [ht]
  heard := ht ▸ h.heard.wrote _
  routed := by
    rw [ht]
    refine h.routed.wrote fun hkind => ?_
    cases hop <;> simp_all [Hop.message, Hop.kind, Hop.writer, Hop.reader]

/-- A message has been read. -/
theorem got {hop : Hop} {m : CString}
    (h : Moment s p posted finished questions (some (hop.message m))) {t : State}
    (hp : t.places = p') (hs : t.memory.Posted posted) (hf : t.memory.finished = finished)
    (ht : t.trace = s.trace ++ [.got hop.reader hop.writer (Ring.kept 1024 m.bytes)]) :
    Moment t p' posted finished questions none where
  places := hp
  semaphore := hs
  finished := hf
  questions := by simp [ht, openQuestions_snoc, h.questions, hear]
  last := by simp [ht]
  heard := ht ▸ h.heard.got h.last
  routed := ht ▸ h.routed.got _ _ _

end Moment

/-- Where a run can be, and what is in the buffer there. -/
inductive Phase (s : State) : Prop
  | writing (h : Hop) (call : WriteAt)
      (at_ : Moment s (h.writing call) none false h.before none)
      (ring : Writing s.memory.ring call)
  | signalling (h : Hop) (m : CString)
      (at_ : Moment s h.signalling none false h.after (some (h.message m)))
      (ring : s.memory.ring.Pending (m.bytes ++ [0]))
  | posted (h : Hop) (m : CString)
      (at_ : Moment s h.posted (some h.reader) false h.after (some (h.message m)))
      (ring : s.memory.ring.Pending (m.bytes ++ [0]))
  | woken (h : Hop) (m : CString)
      (at_ : Moment s h.woken none false h.after (some (h.message m)))
      (ring : s.memory.ring.Pending (m.bytes ++ [0]))
  | reading (h : Hop) (m : CString) (call : ReadAt)
      (at_ : Moment s (h.reading call) none false h.after (some (h.message m)))
      (ring : Reading s.memory.ring (Ring.kept 1024 m.bytes) call)
  | thinking (x : Exchange) (request : Bytes) (fuel : Nat)
      (at_ : Moment s (thinking x request fuel) none false (Hop.reply x).before none)
      (ring : s.memory.ring.Pending [])
  | listing (at_ : Moment s listing none false [] none) (ring : s.memory.ring.Pending [])
  | listed (at_ : Moment s listed (some .client) false [] none)
      (ring : s.memory.ring.Pending [])
  | prompt (at_ : Moment s prompt none false [] none) (ring : s.memory.ring.Pending [])
  | leaving (l : Leaving) (at_ : Moment s l.places l.semaphore l.finished [] none)

theorem phase_start (buffer : Fin 1024 → UInt8) : Phase (start buffer) := by
  refine .writing (.request .figures) (.store (.ofBytes getFiguresProtocol) 0) ?_
    (Writing.start ?_ _)
  · refine ⟨rfl, fun p => rfl, rfl, rfl, rfl, ?_, ?_⟩
    · intro front reader writer text hfront
      have := List.prefix_nil.mp hfront
      simp at this
    · intro m hm
      simp [start] at hm
  · rw [Ring.pending_nil_iff]
    rfl

theorem SharedMemory.Posted.signal {m : SharedMemory} (h : m.Posted none) (p : Party) :
    (m.signal p).Posted (some p) := by
  intro q
  simp only [SharedMemory.signal, h q, Option.some.injEq]
  by_cases hq : q = p
  · simp [hq]
  · simp [hq, Ne.symm hq]

theorem SharedMemory.Posted.decrement {m : SharedMemory} {p : Party} (h : m.Posted (some p)) :
    (m.decrement p).Posted none := by
  intro q
  simp only [SharedMemory.decrement, h q, Option.some.injEq]
  by_cases hq : q = p
  · simp [hq]
  · simp [hq, Ne.symm hq]

section Step

variable {disk : Disk} {s s' : State} {e : Event}

theorem Phase.after_writing {h : Hop} {call : WriteAt}
    (at_ : Moment s (h.writing call) none false h.before none)
    (ring : Writing s.memory.ring call) (hstep : step disk s e = some s') : Phase s' := by
  rw [step_writing disk h at_.places at_.semaphore] at hstep
  split at hstep
  · have hring := ring.step
    rcases hw : writeStep call s.memory.ring with ⟨r, _ | call'⟩ <;> rw [hw] at hstep hring <;>
      cases hstep
    · exact .signalling h _ (at_.wrote _ rfl at_.semaphore at_.finished rfl) hring
    · exact .writing h call' (at_.next rfl at_.semaphore at_.finished rfl) hring.2
  · cases hstep

theorem kept_noNul (m : CString) : 0 ∉ Ring.kept 1024 m.bytes :=
  fun h => m.noNul (List.mem_of_mem_drop h)

/-- The reader acts on its message, and the buffer is empty. -/
theorem Phase.receive {h : Hop} {text : Bytes} {p : Places}
    (at_ : Moment s p none false h.after none) (ring : s.memory.ring.Pending []) :
    Phase (s.receive text h) := by
  have at' : Moment (s.receive text h) (h.next s.serverFigures text) none false h.after none :=
    at_.next rfl at_.semaphore at_.finished rfl
  cases h with
  | ask =>
      rw [Hop.next] at at'
      cases hb : buildRequest s.serverFigures text with
      | error response =>
          rw [hb] at at'
          exact .writing .answer _ at' (Writing.start ring _)
      | ok request =>
          rw [hb] at at'
          exact .writing (.request .relay) _ at' (Writing.start ring _)
  | request x => exact .thinking x text 0 at' ring
  | reply x =>
      cases x with
      | figures => exact .listing at' ring
      | relay => exact .writing .answer _ at' (Writing.start ring _)
  | answer => exact .prompt at' ring

theorem Phase.after_reading {h : Hop} {m : CString} {call : ReadAt}
    (at_ : Moment s (h.reading call) none false h.after (some (h.message m)))
    (ring : Reading s.memory.ring (Ring.kept 1024 m.bytes) call)
    (hstep : step disk s e = some s') : Phase s' := by
  rw [step_reading disk h at_.places at_.semaphore] at hstep
  split at hstep
  · have hring := ring.step (kept_noNul m) (Ring.length_kept_lt _)
    rcases hr : readStep call s.memory.ring with ⟨r, text | call'⟩ <;>
      rw [hr] at hstep hring <;> cases hstep
    · obtain ⟨rfl, hpend⟩ := hring
      exact Phase.receive (at_.got (t := (s.setRing r).log _) rfl at_.semaphore at_.finished rfl)
        hpend
    · exact .reading h m call' (at_.next rfl at_.semaphore at_.finished rfl) hring
  · cases hstep

theorem Phase.after_woken {h : Hop} {m : CString}
    (at_ : Moment s h.woken none false h.after (some (h.message m)))
    (ring : s.memory.ring.Pending (m.bytes ++ [0])) (hstep : step disk s e = some s') :
    Phase s' := by
  have hread : Reading s.memory.ring (Ring.kept 1024 m.bytes) (.load []) :=
    ⟨_, rfl, ring.kept⟩
  by_cases hw : h.woken = h.reading (.load [])
  · exact Phase.after_reading (hw ▸ at_) hread hstep
  · rw [step_woken disk h at_.places hw at_.semaphore at_.finished] at hstep
    split at hstep
    · cases hstep
      exact .reading h m _ (at_.next rfl at_.semaphore at_.finished rfl) hread
    · cases hstep

/-- The steps to the end of the way out. -/
def Leaving.left : Leaving → Nat
  | .setFinished => 4
  | .signalExit => 3
  | .posted => 2
  | .getFinished => 1
  | .gone => 0

theorem Moment.leave {l : Leaving} {p : Party}
    (at_ : Moment s l.places l.semaphore l.finished [] none)
    (hleave : s.leave l = some (p, s')) :
    ∃ l' : Leaving, l'.left + 1 = l.left ∧ s'.trace = s.trace
      ∧ Moment s' l'.places l'.semaphore l'.finished [] none := by
  cases l with
  | setFinished =>
      cases hleave
      exact ⟨.signalExit, rfl, rfl, at_.next rfl at_.semaphore rfl rfl⟩
  | signalExit =>
      cases hleave
      exact ⟨.posted, rfl, rfl, at_.next rfl (at_.semaphore.signal _) at_.finished rfl⟩
  | posted =>
      cases hleave
      exact ⟨.getFinished, rfl, rfl, at_.next rfl at_.semaphore.decrement at_.finished rfl⟩
  | getFinished =>
      cases hleave
      exact ⟨.gone, rfl, rfl, at_.next rfl at_.semaphore at_.finished rfl⟩
  | gone => cases hleave

theorem Phase.after_leaving {l : Leaving}
    (at_ : Moment s l.places l.semaphore l.finished [] none)
    (hstep : step disk s e = some s') : Phase s' := by
  rw [step_leaving disk l at_.places at_.semaphore at_.finished] at hstep
  cases hleave : s.leave l with
  | none =>
      rw [hleave] at hstep
      cases hstep
  | some r =>
      obtain ⟨l', -, -, hl'⟩ := at_.leave (hleave : _ = some (r.1, r.2))
      rw [hleave] at hstep
      simp only at hstep
      split at hstep <;> cases hstep
      exact .leaving l' hl'

/-- **Every step of the program leads to another of the moments.** -/
theorem Phase.after (h : Phase s) (hstep : step disk s e = some s') : Phase s' := by
  cases h with
  | writing h call at_ ring => exact Phase.after_writing at_ ring hstep
  | signalling h m at_ ring =>
      rw [step_signalling disk h at_.places at_.semaphore] at hstep
      split at hstep <;> cases hstep
      exact .posted h m (at_.next rfl (at_.semaphore.signal _) at_.finished rfl) ring
  | posted h m at_ ring =>
      rw [step_posted disk h at_.places at_.semaphore] at hstep
      split at hstep <;> cases hstep
      exact .woken h m (at_.next rfl at_.semaphore.decrement at_.finished rfl) ring
  | woken h m at_ ring => exact Phase.after_woken at_ ring hstep
  | reading h m call at_ ring => exact Phase.after_reading at_ ring hstep
  | thinking x request fuel at_ ring =>
      rw [step_thinking disk at_.places at_.semaphore] at hstep
      split at hstep
      · cases hb : buildAnswer fuel disk request <;> rw [hb] at hstep <;> cases hstep
        · exact .thinking x request _ (at_.next rfl at_.semaphore at_.finished rfl) ring
        · exact .writing (.reply x) _ (at_.next rfl at_.semaphore at_.finished rfl)
            (Writing.start ring _)
      · cases hstep
  | listing at_ ring =>
      rw [step_listing disk at_.places at_.semaphore] at hstep
      split at hstep <;> cases hstep
      exact .listed (at_.next rfl (at_.semaphore.signal _) at_.finished rfl) ring
  | listed at_ ring =>
      rw [step_listed disk at_.places at_.semaphore] at hstep
      split at hstep <;> cases hstep
      exact .prompt (at_.next rfl at_.semaphore.decrement at_.finished rfl) ring
  | prompt at_ ring =>
      rw [step_prompt disk at_.places at_.semaphore] at hstep
      cases e with
      | input message =>
          simp only [Option.some.injEq] at hstep
          subst hstep
          split
          · exact .leaving .setFinished (at_.next rfl at_.semaphore at_.finished rfl)
          · exact .writing .ask _ (at_.next rfl at_.semaphore at_.finished rfl)
              (Writing.start ring _)
      | client => cases hstep
      | tenedor => cases hstep
      | server => cases hstep
  | leaving l at_ => exact Phase.after_leaving at_ hstep

/-- **Every state of a run is one of the moments.** -/
theorem phase_of_run {buffer : Fin 1024 → UInt8} {events : List Event}
    (h : exec (step disk) (start buffer) events = some s) : Phase s :=
  exec_induction (fun hp hstep => Phase.after hp hstep) (phase_start buffer) h

end Step

end DistributedAscii.Simulation
