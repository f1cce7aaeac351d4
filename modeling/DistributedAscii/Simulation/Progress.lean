import DistributedAscii.Simulation.Delivery

/-!
# Simulation — progress

As long as the user does not leave, some thread can always step. When the
user leaves, the client sets `finished` and signals the tenedor only: client
and tenedor return, and the server stays in `waitServer`, so the third join
of `main` never returns.
-/

namespace DistributedAscii.Simulation

open FileSystem Lib Lib.Runs

variable {disk : Disk} {s s' : State}

/-- Some thread can step, if need be with a line of the user. -/
def CanStep (disk : Disk) (s : State) : Prop :=
  ∃ e s', step disk s e = some s'

/-- All three joins of `main` return. -/
def AllReturned (s : State) : Prop :=
  s.places = ⟨.returned, .returned, .returned⟩

/-! ## Where a run can stop -/

/-- Only the end of the way out is without a step. -/
theorem Phase.can_step (h : Phase s) : CanStep disk s ∨ s.places = Leaving.gone.places := by
  cases h with
  | writing h call at_ ring =>
      exact .inl ⟨_, _, by rw [step_writing disk h at_.places at_.semaphore, if_pos rfl]⟩
  | signalling h m at_ ring =>
      exact .inl ⟨_, _, by rw [step_signalling disk h at_.places at_.semaphore, if_pos rfl]⟩
  | posted h m at_ ring =>
      exact .inl ⟨_, _, by rw [step_posted disk h at_.places at_.semaphore, if_pos rfl]⟩
  | woken h m at_ ring =>
      by_cases hw : h.woken = h.reading (.load [])
      · exact .inl ⟨_, _, by rw [step_reading disk h (hw ▸ at_.places) at_.semaphore, if_pos rfl]⟩
      · exact .inl ⟨_, _, by
          rw [step_woken disk h at_.places hw at_.semaphore at_.finished, if_pos rfl]⟩
  | reading h m call at_ ring =>
      exact .inl ⟨_, _, by rw [step_reading disk h at_.places at_.semaphore, if_pos rfl]⟩
  | thinking x request fuel at_ ring =>
      exact .inl ⟨_, _, by rw [step_thinking disk at_.places at_.semaphore, if_pos rfl]⟩
  | listing at_ ring =>
      exact .inl ⟨_, _, by rw [step_listing disk at_.places at_.semaphore, if_pos rfl]⟩
  | listed at_ ring =>
      exact .inl ⟨_, _, by rw [step_listed disk at_.places at_.semaphore, if_pos rfl]⟩
  | prompt at_ ring =>
      exact .inl ⟨.input [], _, by rw [step_prompt disk at_.places at_.semaphore]⟩
  | leaving l at_ =>
      cases hl : s.leave l with
      | some r =>
          refine .inl ⟨r.1.event, r.2, ?_⟩
          rw [step_leaving disk l at_.places at_.semaphore at_.finished, hl]
          exact if_pos rfl
      | none =>
          cases l with
          | gone => exact .inr at_.places
          | _ => cases hl

/-! ## The way out -/

def Event.isExit : Event → Bool
  | .input message => Simulation.isExit message
  | _ => false

theorem inputStep_leaving {message : Bytes} (h : inputStep message s = some s') :
    s'.client.leaving = (s.client.leaving || isExit message) := by
  grind [inputStep, isExit, ClientAt.leaving]

theorem clientStep_leaving (h : clientStep s = some s') :
    s'.client.leaving = s.client.leaving := by
  grind [clientStep, State.setRing, State.log, ClientAt.leaving, Option.map_eq_some_iff]

theorem tenedorStep_client (h : tenedorStep s = some s') : s'.client = s.client := by
  grind [tenedorStep, State.setRing, State.log, Option.map_eq_some_iff]

theorem serverStep_client (h : serverStep disk s = some s') : s'.client = s.client := by
  grind [serverStep, State.setRing, State.log, Option.map_eq_some_iff]

theorem leaving_step {e : Event} (h : step disk s e = some s') :
    s'.client.leaving = (s.client.leaving || e.isExit) := by
  cases e with
  | input message => exact inputStep_leaving h
  | client => simp [Event.isExit, clientStep_leaving h]
  | tenedor => simp [Event.isExit, tenedorStep_client h]
  | server => simp [Event.isExit, serverStep_client h]

theorem leaving_exec {events : List Event} (h : exec (step disk) s events = some s') :
    s'.client.leaving = (s.client.leaving || events.any Event.isExit) := by
  induction events generalizing s with
  | nil =>
      cases h
      simp
  | cons e events ih =>
      obtain ⟨t, ht, hrest⟩ := Option.bind_eq_some_iff.mp h
      rw [ih hrest, leaving_step ht, List.any_cons, Bool.or_assoc]

theorem Phase.at_leaving (h : Phase s) (hc : s.client.leaving = true) :
    ∃ l : Leaving, Moment s l.places l.semaphore l.finished [] none := by
  rcases h.client_cases with ⟨-, hstays⟩ | ⟨hprompt, -, -⟩ | ⟨-, hleaving⟩
  · rw [hstays] at hc
    cases hc
  · rw [hprompt] at hc
    cases hc
  · exact hleaving

variable (disk) in
/-- At the end the server waits, and nobody is left to signal it. -/
theorem stuck_of_gone (h : Moment s Leaving.gone.places none true [] none) :
    ¬ CanStep disk s ∧ ¬ AllReturned s := by
  constructor
  · rintro ⟨e, t, ht⟩
    rw [step_leaving disk .gone h.places h.semaphore h.finished] at ht
    cases ht
  · intro hall
    have := h.places.symm.trans hall
    cases this

variable (disk) in
/-- Every way out ends there; the induction is on the steps that are left. -/
theorem reaches_gone (n : Nat) (l : Leaving) (hn : l.left = n)
    (h : Moment s l.places l.semaphore l.finished [] none) :
    ∃ t, Reaches disk s t ∧ t.trace = s.trace ∧ ¬ CanStep disk t ∧ ¬ AllReturned t := by
  induction n generalizing l s with
  | zero =>
      obtain rfl : l = .gone := by cases l <;> simp_all [Leaving.left]
      exact ⟨s, .refl, rfl, stuck_of_gone disk h⟩
  | succ n ih =>
      cases hleave : s.leave l with
      | none => cases l <;> simp_all [Leaving.left, State.leave]
      | some r =>
          obtain ⟨l', hleft, htrace, hl'⟩ := h.leave (hleave : _ = some (r.1, r.2))
          obtain ⟨t, hreach, htrace', ht⟩ := ih l' (by omega) hl'
          refine ⟨t, (Turn.reaches r.1 ?_).trans hreach, htrace'.trans htrace, ht⟩
          rw [step_leaving disk l h.places h.semaphore h.finished, hleave]
          exact if_pos rfl

/-! ## Runs -/

/-- From here on no thread is stuck before the user leaves. -/
def NeverStuck (disk : Disk) (s : State) : Prop :=
  ∀ more t, (∀ message, .input message ∈ more → isExit message = false) →
    exec (step disk) s more = some t → CanStep disk t ∨ AllReturned t

theorem any_isExit_eq_false_iff {events : List Event} :
    events.any Event.isExit = false ↔
      ∀ message, .input message ∈ events → isExit message = false := by
  rw [List.any_eq_false]
  constructor
  · intro h message hmem
    simpa [Event.isExit] using h _ hmem
  · intro h e hmem
    cases e with
    | input message => simpa [Event.isExit] using h message hmem
    | client => simp [Event.isExit]
    | tenedor => simp [Event.isExit]
    | server => simp [Event.isExit]

theorem input_not_mem_turns (parties : List Party) (message : Bytes) :
    .input message ∉ parties.map Party.event := by
  intro hmem
  obtain ⟨p, -, hp⟩ := List.mem_map.mp hmem
  cases p <;> cases hp

/-- **No thread is stuck as long as nobody leaves**, and only then: from the
`exit` of the user on the run ends with the server waiting. -/
theorem progress_iff {buffer : Fin 1024 → UInt8} {events : List Event}
    (hrun : exec (step disk) (start buffer) events = some s) :
    (∀ message, .input message ∈ events → isExit message = false) ↔ NeverStuck disk s := by
  have hleaving := leaving_exec hrun
  rw [show (start buffer).client.leaving = false from rfl, Bool.false_or] at hleaving
  rw [← any_isExit_eq_false_iff, ← hleaving]
  constructor
  · intro hstay more t hmore ht
    have hphase : Phase t := phase_of_run (by rw [exec_append, hrun]; exact ht)
    refine hphase.can_step.imp_right fun hgone => ?_
    have hclient : t.client = .returned := congrArg Places.client hgone
    have := leaving_exec ht
    rw [hstay, any_isExit_eq_false_iff.mpr hmore, hclient] at this
    cases this
  · intro hgo
    by_contra hexit
    rw [Bool.not_eq_false] at hexit
    obtain ⟨l, hl⟩ := (phase_of_run hrun).at_leaving hexit
    obtain ⟨t, hreach, -, hstuck, hreturned⟩ := reaches_gone disk _ l rfl hl
    obtain ⟨parties, hexec⟩ := hreach.exists_exec
    exact (hgo _ t (fun m hm => absurd hm (input_not_mem_turns parties m)) hexec).elim
      hstuck hreturned

/-- When a drawing has been asked for and shown. -/
theorem progress_iff_goku :
    ∃ events s, exec (step (goku (bytes "=^.^="))) (start fun _ => 0) events = some s
      ∧ s.trace.getLast? = some (.got .client .tenedor (wholeAnswer (bytes "=^.^=")))
      ∧ NeverStuck (goku (bytes "=^.^=")) s := by
  have hname : bytes "Goku.txt" ∈ listedNames := by decide
  have hstored : Stored (goku (bytes "=^.^=")) (.ofBytes (bytes "Goku.txt")) (bytes "=^.^=") :=
    stored_goku (by decide) (by decide)
  obtain ⟨t, hreach, ht, hring⟩ := reaches_prompt (goku (bytes "=^.^=")) fun _ => 0
  obtain ⟨front, hfront⟩ := hreach.exists_exec
  obtain ⟨⟨back, s, hback, hprompt⟩, hlast⟩ := answersWith_carried hname hstored
    (phase_of_run hfront) ht hring
  have hrun : exec (step (goku (bytes "=^.^="))) (start fun _ => 0)
      (front.map Party.event ++ .input (getLine (bytes "Goku.txt")) :: back.map Party.event)
        = some s := by
    rw [exec_append, hfront]
    exact hback
  have hanswer : carried (buildResponse (carried (framed (bytes "=^.^="))))
      = wholeAnswer (bytes "=^.^=") :=
    (carried_eq_wholeAnswer_iff (by decide) (by decide +kernel)).mpr
      ⟨by decide, by decide +kernel⟩
  refine ⟨_, s, hrun, by rw [hlast back s hback hprompt, hanswer], (progress_iff hrun).mp ?_⟩
  intro message hmem
  rw [List.mem_append, List.mem_cons] at hmem
  obtain hmem | heq | hmem := hmem
  · exact absurd hmem (input_not_mem_turns front message)
  · cases heq
    exact not_isExit_getLine _ hname
  · exact absurd hmem (input_not_mem_turns back message)

/-- A user who leaves at the first prompt: the run stops with the server
waiting, and the messages were short. -/
theorem exit_stuck :
    ∃ (front back : List Party) (s : State), exec (step []) (start fun _ => 0)
        (front.map Party.event ++ .input (bytes "exit") :: back.map Party.event) = some s
      ∧ (∀ m, .wrote m ∈ s.trace → m.text.length ≤ 1023)
      ∧ ¬ CanStep [] s ∧ ¬ AllReturned s := by
  obtain ⟨t, hreach, ht, hring⟩ := reaches_prompt [] fun _ => 0
  obtain ⟨front, hfront⟩ := hreach.exists_exec
  have hphase := phase_of_run hfront
  have hclient : t.client = .getline := congrArg Places.client ht.places
  obtain ⟨hat, -⟩ := hphase.at_prompt hclient
  -- the exit
  have hexit := step_prompt [] ht.places ht.semaphore (.input (bytes "exit"))
  obtain ⟨s, hout, htrace, hstuck⟩ := reaches_gone [] _ .setFinished rfl
    (hat.next (t := t.moveTo Leaving.setFinished.places) rfl ht.semaphore ht.finished rfl)
  obtain ⟨back, hback⟩ := hout.exists_exec
  refine ⟨front, back, s, ?_, ?_, hstuck⟩
  · rw [exec_append, hfront, Option.bind_some, exec, hexit]
    exact hback
  · have hshort : ∀ m, .wrote m ∈ consulted .figures getFiguresProtocol objCase →
        m.text.length ≤ 1023 := by
      intro m hm
      simp only [consulted, List.mem_cons, Action.wrote.injEq, reduceCtorEq, List.not_mem_nil,
        or_false, false_or] at hm
      rcases hm with rfl | rfl <;> decide +kernel
    intro m hm
    rw [htrace] at hm
    exact hshort m (ht.trace ▸ hm)

end DistributedAscii.Simulation
