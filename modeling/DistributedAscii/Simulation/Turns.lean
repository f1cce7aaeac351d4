import DistributedAscii.Simulation.Conversation

/-!
# Simulation — turns

What the threads do on their own, without the user: a message that is being
written arrives (`deliver`), the server answers if its loop returns, and in
the beginning the list of figures goes around until the client stands at
its prompt. The threads never have a choice (`event_unique`), so every run
does what these runs do.
-/

namespace DistributedAscii.Simulation

open FileSystem Lib Lib.Runs Relation

variable (disk : Disk)

/-- A step of one of the threads. -/
def Turn (disk : Disk) (s t : State) : Prop :=
  ∃ p : Party, step disk s p.event = some t

/-- The threads get from one state to the other without the user. -/
abbrev Reaches (disk : Disk) : State → State → Prop :=
  ReflTransGen (Turn disk)

theorem Turn.reaches {disk : Disk} {s t : State} (p : Party) (h : step disk s p.event = some t) :
    Reaches disk s t :=
  .single ⟨p, h⟩

theorem Reaches.exists_exec {disk : Disk} {s t : State} (h : Reaches disk s t) :
    ∃ parties : List Party, exec (step disk) s (parties.map Party.event) = some t := by
  induction h with
  | refl => exact ⟨[], rfl⟩
  | tail _ hturn ih =>
      obtain ⟨p, hp⟩ := hturn
      obtain ⟨parties, hexec⟩ := ih
      refine ⟨parties ++ [p], ?_⟩
      rw [List.map_append, List.map_singleton, exec_snoc, hexec]
      exact hp

/-- What is said about a state between two turns. -/
structure Stands (s : State) (places : Places) (posted : Option Party)
    (serverFigures : ServerFigures) (trace : List Action) : Prop where
  places : s.places = places
  semaphore : s.memory.Posted posted
  finished : s.memory.finished = false
  serverFigures : s.serverFigures = serverFigures
  trace : s.trace = trace

/-! ## A message arrives -/

section Deliver

variable {f : ServerFigures} {tr : List Action} {s : State}

theorem Stands.next {p q : Places} {posted posted' : Option Party} (h : Stands s p posted f tr)
    {t : State} (hp : t.places = q) (hs : t.memory.Posted posted')
    (hf : t.memory.finished = s.memory.finished) (hg : t.serverFigures = s.serverFigures)
    (ht : t.trace = s.trace) : Stands t q posted' f tr where
  places := hp
  semaphore := hs
  finished := hf.trans h.finished
  serverFigures := hg.trans h.serverFigures
  trace := ht.trans h.trace

/-- The steps that a call of `write` still has to make. -/
def WriteAt.todo : WriteAt → Nat
  | .store value i => 2 * (value.bytes.length - i) + 2
  | .advance value i => 2 * (value.bytes.length - i) + 1

theorem todo_writeStep {r : Ring UInt8 1024} {call call' : WriteAt}
    (h : (writeStep call r).2 = some call') (hw : Writing r call) : call'.todo < call.todo := by
  cases call with
  | store value i =>
      simp only [writeStep, Option.some.injEq] at h
      subst h
      simp [WriteAt.todo]
  | advance value i =>
      simp only [writeStep] at h
      split at h
      · cases h
      · rename_i h0
        cases h
        rw [charAt_eq_zero_iff] at h0
        simp only [WriteAt.todo]
        omega

/-- The steps of `write`; the induction is on how many there are. -/
theorem reaches_signalling (h : Hop) (n : Nat) {call : WriteAt} (hn : call.todo ≤ n)
    (hs : Stands s (h.writing call) none f tr) (hring : Writing s.memory.ring call) :
    ∃ t, Reaches disk s t
      ∧ Stands t h.signalling none f (tr ++ [.wrote (h.message call.value)])
      ∧ t.memory.ring.Pending (call.value.bytes ++ [0]) := by
  induction n generalizing call s with
  | zero => cases call <;> simp [WriteAt.todo] at hn
  | succ n ih =>
      have hstep := step_writing disk h hs.places hs.semaphore h.writer.event
      have hnext := hring.step
      have htodo : ∀ call', (writeStep call s.memory.ring).2 = some call' → call'.todo ≤ n := by
        intro call' h'
        have := todo_writeStep h' hring
        omega
      rw [if_pos rfl] at hstep
      rcases hw : writeStep call s.memory.ring with ⟨r, _ | call'⟩ <;>
        rw [hw] at hstep hnext htodo
      · refine ⟨_, Turn.reaches _ hstep, ?_, hnext⟩
        exact ⟨rfl, hs.semaphore, hs.finished, hs.serverFigures, by rw [← hs.trace]; rfl⟩
      · obtain ⟨hvalue, hwriting⟩ := hnext
        obtain ⟨t, hreach, ht⟩ := ih (htodo call' rfl)
          (hs.next (t := (s.setRing r).moveTo _) rfl hs.semaphore rfl rfl rfl) hwriting
        exact ⟨t, (Turn.reaches _ hstep).trans hreach, hvalue ▸ ht⟩

/-- The steps that a call of `read` of the message `m` still has to make. -/
def ReadAt.todo (m : Bytes) : ReadAt → Nat
  | .load result => 2 * (m.length - result.length) + 2
  | .advance result true => 2 * (m.length - result.length) + 3
  | .advance _ false => 1

theorem todo_readStep {r : Ring UInt8 1024} {m : Bytes} {call call' : ReadAt}
    (h : (readStep call r).2 = .inr call') (hr : Reading r m call) (hlen : m.length < 1024) :
    call'.todo m < call.todo m := by
  cases call with
  | load result =>
      obtain ⟨rest, rfl, hpend⟩ := hr
      cases rest with
      | nil =>
          obtain ⟨hload, -⟩ := hpend.take (by simp)
          simp only [readStep, hload, ne_eq, not_true_eq_false, if_false, Sum.inr.injEq] at h
          subst h
          simp [ReadAt.todo]
      | cons c rest =>
          obtain ⟨hload, -⟩ := hpend.take (by simp at hlen ⊢; omega)
          simp only [readStep, hload, Sum.inr.injEq] at h
          subst h
          split
          all_goals
            simp only [ReadAt.todo, List.length_append, List.length_cons, List.length_nil]
            omega
  | advance result more =>
      cases more with
      | true =>
          simp only [readStep, if_true, Sum.inr.injEq] at h
          subst h
          simp [ReadAt.todo]
      | false => simp [readStep] at h

/-- The steps of `read`, and what the reader does then. -/
theorem reaches_next (h : Hop) (m : CString) (n : Nat) {call : ReadAt}
    (hn : call.todo (Ring.kept 1024 m.bytes) ≤ n) (hs : Stands s (h.reading call) none f tr)
    (hring : Reading s.memory.ring (Ring.kept 1024 m.bytes) call) :
    ∃ t, Reaches disk s t
      ∧ Stands t (h.next f (Ring.kept 1024 m.bytes)) none
        (h.figures f (Ring.kept 1024 m.bytes))
        (tr ++ [.got h.reader h.writer (Ring.kept 1024 m.bytes)])
      ∧ t.memory.ring.Pending [] := by
  induction n generalizing call s with
  | zero =>
      cases call with
      | load result => simp [ReadAt.todo] at hn
      | advance result more => cases more <;> simp [ReadAt.todo] at hn
  | succ n ih =>
      have hlen : (Ring.kept 1024 m.bytes).length < 1024 := Ring.length_kept_lt _
      have hstep := step_reading disk h hs.places hs.semaphore h.reader.event
      have hnext := hring.step (kept_noNul m) hlen
      have htodo : ∀ call', (readStep call s.memory.ring).2 = .inr call' →
          call'.todo (Ring.kept 1024 m.bytes) ≤ n := by
        intro call' h'
        have := todo_readStep h' hring hlen
        omega
      rw [if_pos rfl] at hstep
      rcases hr : readStep call s.memory.ring with ⟨r, text | call'⟩ <;>
        rw [hr] at hstep hnext htodo
      · obtain ⟨rfl, hpend⟩ := hnext
        refine ⟨_, Turn.reaches _ hstep, ?_, hpend⟩
        refine ⟨?_, hs.semaphore, hs.finished, ?_, ?_⟩
        · rw [← hs.serverFigures]
          rfl
        · rw [← hs.serverFigures]
          rfl
        · rw [← hs.trace]
          rfl
      · obtain ⟨t, hreach, ht⟩ := ih (htodo call' rfl)
          (hs.next (t := (s.setRing r).moveTo _) rfl hs.semaphore rfl rfl rfl) hnext
        exact ⟨t, (Turn.reaches _ hstep).trans hreach, ht⟩

/-- From the signal to the first step of `read`. -/
theorem reaches_reading (h : Hop) (hs : Stands s h.signalling none f tr) :
    ∃ t, Reaches disk s t ∧ Stands t (h.reading (.load [])) none f tr
      ∧ t.memory.ring = s.memory.ring := by
  -- the signal, the wait, and the look at `finished` where there is one
  have hsignal := step_signalling disk h hs.places hs.semaphore h.writer.event
  rw [if_pos rfl] at hsignal
  have hs1 := hs.next (q := h.posted)
    (t := { s with memory := s.memory.signal h.reader }.moveTo h.posted) rfl
    (hs.semaphore.signal _) rfl rfl rfl
  generalize hu : { s with memory := s.memory.signal h.reader }.moveTo h.posted = u at hsignal hs1
  have hring : u.memory.ring = s.memory.ring := by
    rw [← hu]
    rfl
  have hposted := step_posted disk h hs1.places hs1.semaphore h.reader.event
  rw [if_pos rfl] at hposted
  have hs2 := hs1.next (q := h.woken)
    (t := { u with memory := u.memory.decrement h.reader }.moveTo h.woken) rfl
    hs1.semaphore.decrement rfl rfl rfl
  have hreach := (Turn.reaches _ hsignal).trans (Turn.reaches _ hposted)
  by_cases hw : h.woken = h.reading (.load [])
  · exact ⟨_, hreach, hw ▸ hs2, hring⟩
  · have hwoken := step_woken disk h hs2.places hw hs2.semaphore hs2.finished
      h.reader.event
    rw [if_pos rfl] at hwoken
    exact ⟨_, hreach.trans (Turn.reaches _ hwoken),
      hs2.next rfl hs2.semaphore rfl rfl rfl, hring⟩

/-- **A message arrives**: what is left of it behind the buffer is what its
reader goes on with. -/
theorem deliver (h : Hop) (m : CString) (hs : Stands s (h.writing (.store m 0)) none f tr)
    (hring : s.memory.ring.Pending []) :
    ∃ t, Reaches disk s t
      ∧ Stands t (h.next f (Ring.kept 1024 m.bytes)) none
        (h.figures f (Ring.kept 1024 m.bytes))
        (tr ++ [.wrote (h.message m), .got h.reader h.writer (Ring.kept 1024 m.bytes)])
      ∧ t.memory.ring.Pending [] := by
  obtain ⟨t1, h1, hs1, hr1⟩ := reaches_signalling disk h _ le_rfl hs
    (Writing.start hring m)
  obtain ⟨t2, h2, hs2, hr2⟩ := reaches_reading disk h hs1
  obtain ⟨t3, h3, hs3, hr3⟩ := reaches_next disk h m _ le_rfl hs2
    ⟨_, rfl, hr2 ▸ hr1.kept⟩
  refine ⟨t3, (h1.trans h2).trans h3, ?_, hr3⟩
  simpa [WriteAt.value] using hs3

/-- The server answers, if its loop returns. -/
theorem reaches_reply (x : Exchange) {request response : Bytes}
    (hresponse : ∃ fuel, buildAnswer fuel disk request = some response)
    (hs : Stands s (thinking x request 0) none f tr) :
    ∃ t, Reaches disk s t
      ∧ Stands t ((Hop.reply x).writing (.store (.ofBytes response) 0)) none f tr
      ∧ t.memory.ring = s.memory.ring := by
  obtain ⟨fuel, hfuel⟩ := hresponse
  suffices hgo : ∀ k tried s, tried + k = fuel → Stands s (thinking x request tried) none f tr →
      ∃ t, Reaches disk s t
        ∧ Stands t ((Hop.reply x).writing (.store (.ofBytes response) 0)) none f tr
        ∧ t.memory.ring = s.memory.ring from hgo fuel 0 s (Nat.zero_add _) hs
  intro k
  induction k with
  | zero =>
      intro tried s htried hs
      have hstep := step_thinking disk hs.places hs.semaphore .server
      rw [if_pos rfl, ← Nat.add_zero tried, htried, hfuel] at hstep
      exact ⟨_, Turn.reaches .server hstep, hs.next rfl hs.semaphore rfl rfl rfl, rfl⟩
  | succ k ih =>
      intro tried s htried hs
      have hstep := step_thinking disk hs.places hs.semaphore .server
      rw [if_pos rfl] at hstep
      cases hb : buildAnswer tried disk request with
      | none =>
          rw [hb] at hstep
          obtain ⟨t, hreach, ht, hring⟩ :=
            ih (tried + 1) (s.moveTo (thinking x request (tried + 1))) (by omega)
              (hs.next rfl hs.semaphore rfl rfl rfl)
          exact ⟨t, (Turn.reaches .server hstep).trans hreach, ht, hring⟩
      | some response' =>
          have heq : response' = response := by
            have := buildAnswer_mono hb (show tried ≤ fuel by omega)
            rw [hfuel] at this
            cases this
            rfl
          rw [hb, heq] at hstep
          exact ⟨_, Turn.reaches .server hstep, hs.next rfl hs.semaphore rfl rfl rfl, rfl⟩

end Deliver

/-! ## What arrives -/

/-- What arrives of a text that a thread writes. -/
def carried (text : Bytes) : Bytes :=
  Ring.kept 1024 (CString.ofBytes text).bytes

theorem carried_of_short {text : Bytes} (hnul : 0 ∉ text) (hlen : text.length ≤ 1023) :
    carried text = text := by
  rw [carried, CString.ofBytes_bytes hnul, Ring.kept_of_lt (by omega)]

theorem length_carried_le (text : Bytes) : (carried text).length ≤ 1023 :=
  Nat.le_of_lt_succ (Ring.length_kept_lt _)

section Served

variable {f : ServerFigures} {tr : List Action} {s : State}

/-- What the trace says of a question of the tenedor and its answer. -/
def consulted (x : Exchange) (question response : Bytes) : List Action :=
  [.wrote ((Hop.request x).message (.ofBytes question)), .got .server .tenedor (carried question),
    .wrote ((Hop.reply x).message (.ofBytes response)), .got .tenedor .server (carried response)]

/-- A question of the tenedor is answered by the server. -/
theorem reaches_answered (x : Exchange) {question response : Bytes}
    (hresponse : ∃ fuel, buildAnswer fuel disk (carried question) = some response)
    (hs : Stands s ((Hop.request x).writing (.store (.ofBytes question) 0)) none f tr)
    (hring : s.memory.ring.Pending []) :
    ∃ t, Reaches disk s t
      ∧ Stands t ((Hop.reply x).next f (carried response)) none
        ((Hop.reply x).figures f (carried response)) (tr ++ consulted x question response)
      ∧ t.memory.ring.Pending [] := by
  obtain ⟨t1, h1, hs1, hr1⟩ := deliver disk (.request x) _ hs hring
  obtain ⟨t2, h2, hs2, hr2⟩ := reaches_reply disk x hresponse hs1
  obtain ⟨t3, h3, hs3, hr3⟩ := deliver disk (.reply x) _ hs2 (hr2 ▸ hr1)
  refine ⟨t3, (h1.trans h2).trans h3, ?_, hr3⟩
  simpa [carried, consulted, Hop.figures, Hop.reader, Hop.writer] using hs3

/-- **A request of the client is served** by way of the server. -/
theorem reaches_served {line question response : Bytes}
    (hbuild : buildRequest f (carried line) = .ok question)
    (hresponse : ∃ fuel, buildAnswer fuel disk (carried question) = some response)
    (hs : Stands s prompt none f tr) (hring : s.memory.ring.Pending []) :
    ∃ t, Reaches disk (s.moveTo (Hop.ask.writing (.store (.ofBytes line) 0))) t
      ∧ t.places = prompt
      ∧ t.trace.getLast?
        = some (.got .client .tenedor (carried (buildResponse (carried response)))) := by
  have hs0 : Stands (s.moveTo (Hop.ask.writing (.store (.ofBytes line) 0)))
      (Hop.ask.writing (.store (.ofBytes line) 0)) none f tr :=
    hs.next rfl hs.semaphore rfl rfl rfl
  obtain ⟨t1, h1, hs1, hr1⟩ := deliver disk .ask _ hs0 hring
  have hnext : Hop.ask.next f (Ring.kept 1024 (CString.ofBytes line).bytes)
      = (Hop.request .relay).writing (.store (.ofBytes question) 0) := by
    rw [Hop.next, ← carried, hbuild]
  rw [hnext] at hs1
  obtain ⟨t2, h2, hs2, hr2⟩ := reaches_answered disk .relay hresponse hs1 hr1
  obtain ⟨t3, h3, hs3, -⟩ := deliver disk .answer _ hs2 hr2
  refine ⟨t3, (h1.trans h2).trans h3, hs3.places, ?_⟩
  rw [hs3.trace, List.getLast?_append]
  rfl

/-! ## The figures -/

/-- The names of `nameList`. -/
def listedNames : List Bytes :=
  [bytes "CocaCola.txt", bytes "Exitante.txt", bytes "Foca.txt", bytes "Gogeta.txt",
    bytes "Goku.txt", bytes "GoyoCat.txt", bytes "Personal.txt"]

theorem setServerFigures_objCase :
    setServerFiguresByResponse [] objCase = [(0, listedNames)] := by
  decide +kernel

/-- In the beginning the list of figures goes around. -/
theorem reaches_prompt (disk : Disk) (buffer : Fin 1024 → UInt8) :
    ∃ t, Reaches disk (start buffer) t
      ∧ Stands t prompt none [(0, listedNames)] (consulted .figures getFiguresProtocol objCase)
      ∧ t.memory.ring.Pending [] := by
  have hs : Stands (start buffer)
      ((Hop.request .figures).writing (.store (.ofBytes getFiguresProtocol) 0)) none [] [] :=
    ⟨rfl, fun p => rfl, rfl, rfl, rfl⟩
  have hquestion : carried getFiguresProtocol = getFiguresProtocol := by decide
  have hanswer : carried objCase = objCase :=
    carried_of_short (by decide +kernel) (by decide +kernel)
  have hresponse : ∃ fuel, buildAnswer fuel disk (carried getFiguresProtocol) = some objCase := by
    refine ⟨0, ?_⟩
    rw [hquestion]
    rfl
  obtain ⟨t1, h1, hs1, hr1⟩ := reaches_answered disk .figures hresponse hs
    (Ring.pending_nil_iff.mpr rfl)
  rw [hanswer, Hop.figures, setServerFigures_objCase] at hs1
  have hlisting := step_listing disk hs1.places hs1.semaphore .tenedor
  rw [if_pos rfl] at hlisting
  have hs2 := hs1.next (q := listed)
    (t := { t1 with memory := t1.memory.signal .client }.moveTo listed) rfl
    (hs1.semaphore.signal _) rfl rfl rfl
  have hlisted := step_listed disk hs2.places hs2.semaphore .client
  rw [if_pos rfl] at hlisted
  exact ⟨_, (h1.trans (Turn.reaches .tenedor hlisting)).trans (Turn.reaches .client hlisted),
    hs2.next rfl hs2.semaphore.decrement rfl rfl rfl, hr1⟩

end Served

/-! ## No choice -/

theorem Party.event_injective {p q : Party} (h : p.event = q.event) : p = q := by
  cases p <;> cases q <;> simp_all [Party.event]

/-- One thread at most can step. -/
theorem Phase.turn_unique {s : State} (h : Phase s) :
    ∃ q, ∀ (p : Party) (t : State), step disk s p.event = some t → p = q := by
  have hite : ∀ {p q : Party} {o : Option State} {t : State},
      (if p.event = q.event then o else none) = some t → p = q := by
    intro p q o t h
    split at h
    · rename_i heq
      exact Party.event_injective heq
    · cases h
  cases h with
  | writing h call at_ ring =>
      exact ⟨_, fun p t ht => hite (step_writing disk h at_.places at_.semaphore p.event ▸ ht)⟩
  | signalling h m at_ ring =>
      exact ⟨_, fun p t ht => hite (step_signalling disk h at_.places at_.semaphore p.event ▸ ht)⟩
  | posted h m at_ ring =>
      exact ⟨_, fun p t ht => hite (step_posted disk h at_.places at_.semaphore p.event ▸ ht)⟩
  | woken h m at_ ring =>
      by_cases hw : h.woken = h.reading (.load [])
      · exact ⟨_, fun p t ht =>
          hite (step_reading disk h (hw ▸ at_.places) at_.semaphore p.event ▸ ht)⟩
      · exact ⟨_, fun p t ht =>
          hite (step_woken disk h at_.places hw at_.semaphore at_.finished p.event ▸ ht)⟩
  | reading h m call at_ ring =>
      exact ⟨_, fun p t ht => hite (step_reading disk h at_.places at_.semaphore p.event ▸ ht)⟩
  | thinking x request fuel at_ ring =>
      exact ⟨.server, fun p t ht => hite (step_thinking disk at_.places at_.semaphore p.event ▸ ht)⟩
  | listing at_ ring =>
      exact ⟨.tenedor, fun p t ht => hite (step_listing disk at_.places at_.semaphore p.event ▸ ht)⟩
  | listed at_ ring =>
      exact ⟨.client, fun p t ht => hite (step_listed disk at_.places at_.semaphore p.event ▸ ht)⟩
  | prompt at_ ring =>
      refine ⟨.client, fun p t ht => ?_⟩
      rw [step_prompt disk at_.places at_.semaphore] at ht
      cases p <;> cases ht
  | leaving l at_ =>
      have hstep := fun p : Party =>
        step_leaving disk l at_.places at_.semaphore at_.finished p.event
      cases hl : s.leave l with
      | none =>
          refine ⟨.client, fun p t ht => ?_⟩
          rw [hstep, hl] at ht
          cases ht
      | some r =>
          refine ⟨r.1, fun p t ht => ?_⟩
          rw [hstep, hl] at ht
          exact hite ht

/-- The user has typed `exit`. -/
def ClientAt.leaving : ClientAt → Bool
  | .setFinished | .signalExit | .returned => true
  | _ => false

/-- The client stands at its prompt in one moment, and on the way out in
those of `leaving`; in all others it is busy with a message. -/
theorem Phase.client_cases {s : State} (h : Phase s) :
    (s.client ≠ .getline ∧ s.client.leaving = false) ∨
      (s.client = .getline ∧ Moment s Simulation.prompt none false [] none ∧
        s.memory.ring.Pending []) ∨
      (s.client ≠ .getline ∧
        ∃ l : Leaving, Moment s l.places l.semaphore l.finished [] none) := by
  have hclient : ∀ {p : Places}, s.places = p → s.client = p.client := by
    rintro p rfl
    rfl
  cases h with
  | writing h _ at_ _ | signalling h _ at_ _ | posted h _ at_ _ | woken h _ at_ _
  | reading h _ _ at_ _ =>
      left
      rw [hclient at_.places]
      rcases h with _ | (_ | _) | (_ | _) | _ <;> exact ⟨nofun, rfl⟩
  | thinking x _ _ at_ _ =>
      left
      rw [hclient at_.places]
      cases x <;> exact ⟨nofun, rfl⟩
  | listing at_ _ | listed at_ _ =>
      left
      rw [hclient at_.places]
      exact ⟨nofun, rfl⟩
  | prompt at_ ring => exact .inr (.inl ⟨hclient at_.places, at_, ring⟩)
  | leaving l at_ =>
      refine .inr (.inr ⟨?_, l, at_⟩)
      rw [hclient at_.places]
      cases l <;> exact nofun

theorem Phase.at_prompt {s : State} (h : Phase s) (hc : s.client = .getline) :
    Moment s Simulation.prompt none false [] none ∧ s.memory.ring.Pending [] := by
  rcases h.client_cases with ⟨hne, -⟩ | ⟨-, hprompt⟩ | ⟨hne, -⟩
  · exact absurd hc hne
  · exact hprompt
  · exact absurd hc hne

/-- At the prompt no thread can step. -/
theorem Phase.prompt_stop {s t : State} (h : Phase s) (hc : s.client = .getline) (p : Party) :
    step disk s p.event ≠ some t := by
  obtain ⟨at_, -⟩ := h.at_prompt hc
  intro ht
  rw [step_prompt disk at_.places at_.semaphore] at ht
  cases p <;> cases ht

/-- The user is only asked at the prompt. -/
theorem getline_of_input {s t : State} {message : Bytes}
    (h : step disk s (.input message) = some t) : s.client = .getline := by
  simp only [step, inputStep] at h
  split at h
  · assumption
  · cases h

/-- **Of a run of the threads and any other run from there one continues the
other.** -/
theorem exec_compare {s a b : State} (h : Phase s) {ps : List Party} {events : List Event}
    (ha : exec (step disk) s (ps.map Party.event) = some a)
    (hb : exec (step disk) s events = some b) :
    (∃ rest, events = ps.map Party.event ++ rest ∧ exec (step disk) a rest = some b)
      ∨ ∃ qs : List Party, exec (step disk) b (qs.map Party.event) = some a := by
  induction ps generalizing s events with
  | nil =>
      cases ha
      exact .inl ⟨events, rfl, hb⟩
  | cons p ps ih =>
      cases events with
      | nil =>
          cases hb
          exact .inr ⟨p :: ps, ha⟩
      | cons e events =>
          obtain ⟨t, ht, ha⟩ := Option.bind_eq_some_iff.mp ha
          obtain ⟨u, hu, hb⟩ := Option.bind_eq_some_iff.mp hb
          have he : e = p.event := by
            obtain ⟨r, hr⟩ := h.turn_unique disk
            have hpr := hr p t ht
            cases e with
            | input message =>
                exact absurd ht (h.prompt_stop disk (getline_of_input disk hu) p)
            | client => rw [hpr, ← hr .client u hu, Party.event]
            | tenedor => rw [hpr, ← hr .tenedor u hu, Party.event]
            | server => rw [hpr, ← hr .server u hu, Party.event]
          rw [he, ht] at hu
          cases hu
          rcases ih (h.after ht) ha hb with ⟨rest, rfl, hrest⟩ | hback
          · exact .inl ⟨rest, by rw [he]; rfl, hrest⟩
          · exact .inr hback

/-- The threads leave the prompt only for a line of the user. -/
theorem eq_of_exec_prompt {s t : State} (h : Phase s) (hc : s.client = .getline)
    {ps : List Party} (hrun : exec (step disk) s (ps.map Party.event) = some t) : t = s := by
  cases ps with
  | nil =>
      cases hrun
      rfl
  | cons p ps =>
      obtain ⟨u, hu, -⟩ := Option.bind_eq_some_iff.mp hrun
      exact absurd hu (h.prompt_stop disk hc p)

/-- Without the user every way from one state to the prompt ends in the same
state. -/
theorem exec_prompt_unique {s a b : State} (h : Phase s) {ps qs : List Party}
    (ha : exec (step disk) s (ps.map Party.event) = some a) (hpa : a.client = .getline)
    (hb : exec (step disk) s (qs.map Party.event) = some b) (hpb : b.client = .getline) :
    a = b := by
  have hphase : ∀ {t : State} {rs : List Party},
      exec (step disk) s (rs.map Party.event) = some t → Phase t :=
    fun hrun => exec_induction (fun hp hstep => Phase.after hp hstep) h hrun
  rcases exec_compare disk h ha hb with ⟨rest, hrest, hback⟩ | ⟨rs, hback⟩
  · obtain ⟨qs', rfl⟩ : ∃ qs' : List Party, rest = qs'.map Party.event := by
      obtain ⟨_, qs', -, -, h'⟩ := List.map_eq_append_iff.mp hrest
      exact ⟨qs', h'.symm⟩
    exact (eq_of_exec_prompt disk (hphase ha) hpa hback).symm
  · exact eq_of_exec_prompt disk (hphase hb) hpb hback

end DistributedAscii.Simulation
