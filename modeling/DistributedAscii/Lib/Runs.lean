import Mathlib.Data.List.Induction
import Mathlib.Data.List.Infix

/-!
# Lib — runs

A run is the list of its events, and what is said about it is said about
the states behind its prefixes. `prefix_induction` is the one induction: a
statement that holds at the start and survives every event of the run holds
behind every prefix. The event may be constrained by what came before it,
which is how a condition on each step enters.

`exec` runs a machine whose steps need not be possible. Where a machine is
right only as long as its users keep to a condition, `throughout_iff` is the
rule: an invariant that every step meeting the condition keeps, and that no
other step does.
-/

namespace DistributedAscii.Lib.Runs

variable {σ ε : Type*}

/-- **Induction along a run.** -/
theorem prefix_induction {events : List ε} {P : List ε → Prop} (h0 : P [])
    (hstep : ∀ front e, front ++ [e] <+: events → P front → P (front ++ [e])) :
    ∀ front, front <+: events → P front := by
  intro front
  induction front using List.reverseRecOn with
  | nil => exact fun _ => h0
  | append_singleton front e ih =>
      intro hfront
      exact hstep front e hfront (ih ((List.prefix_append ..).trans hfront))

/-- The event behind a prefix belongs to the run. -/
theorem mem_of_snoc {events front : List ε} {e : ε} (h : front ++ [e] <+: events) :
    e ∈ events :=
  h.subset (by simp)

/-- What holds of the event at each position holds of the event behind each
prefix. -/
theorem forall_snoc_of_getElem? {events : List ε} {P : List ε → ε → Prop}
    (h : ∀ i < events.length, ∀ e ∈ events[i]?, P (events.take i) e) {front : List ε} {e : ε}
    (hfront : front ++ [e] <+: events) : P front e := by
  obtain ⟨back, rfl⟩ := hfront
  have hevent := h front.length (by simp) e (by simp)
  rwa [List.append_assoc, List.take_left] at hevent

section Exec

variable {step : σ → ε → Option σ}

/-- The state after a sequence of events, if each of them is possible. -/
def exec (step : σ → ε → Option σ) : σ → List ε → Option σ
  | s, [] => some s
  | s, e :: rest => (step s e).bind fun s' => exec step s' rest

theorem exec_append (s : σ) (front back : List ε) :
    exec step s (front ++ back) = (exec step s front).bind fun s' => exec step s' back := by
  induction front generalizing s with
  | nil => rfl
  | cons e front ih =>
      simp only [List.cons_append, exec, ih]
      cases step s e <;> rfl

theorem exec_snoc (s : σ) (front : List ε) (e : ε) :
    exec step s (front ++ [e]) = (exec step s front).bind fun s' => step s' e := by
  rw [exec_append]
  congr 1
  funext s'
  simp [exec]

/-- **Invariants**: what every step keeps holds after every run. -/
theorem exec_induction {P : σ → Prop} (hstep : ∀ {s e s'}, P s → step s e = some s' → P s')
    {s s' : σ} {events : List ε} (h : P s) (hrun : exec step s events = some s') : P s' := by
  induction events generalizing s with
  | nil =>
      cases hrun
      exact h
  | cons e rest ih =>
      obtain ⟨t, ht, hrest⟩ := Option.bind_eq_some_iff.mp hrun
      exact ih (hstep h ht) hrest

/-- **A run to the end**: where something is left to do, one of the allowed
events makes it less. -/
theorem exists_exec_of_measure {I : σ → Prop} {allowed : ε → Prop} (measure : σ → Nat)
    (hstep : ∀ {s}, I s → measure s ≠ 0 →
      ∃ e s', allowed e ∧ step s e = some s' ∧ I s' ∧ measure s' < measure s)
    {s : σ} (h : I s) :
    ∃ events s', (∀ e ∈ events, allowed e) ∧ exec step s events = some s' ∧ I s' ∧
      measure s' = 0 := by
  induction hn : measure s using Nat.strong_induction_on generalizing s with
  | _ n ih =>
      by_cases hzero : measure s = 0
      · exact ⟨[], s, by simp, rfl, h, hzero⟩
      · obtain ⟨e, t, hallowed, ht, hI, hless⟩ := hstep h hzero
        obtain ⟨events, s', hevents, hrun, hI', hdone⟩ := ih (measure t) (hn ▸ hless) hI rfl
        refine ⟨e :: events, s', List.forall_mem_cons.mpr ⟨hallowed, hevents⟩, ?_, hI', hdone⟩
        rw [exec, ht]
        exact hrun

/-- `P` holds in every state that a run goes through. -/
def Throughout (step : σ → ε → Option σ) (P : σ → Prop) (s : σ) (events : List ε) : Prop :=
  ∀ front t, front <+: events → exec step s front = some t → P t

/-- Every event of a run meets `C` in the state in which it happens. -/
def EachStep (step : σ → ε → Option σ) (C : σ → ε → Prop) (s : σ) (events : List ε) : Prop :=
  ∀ front e t t', front ++ [e] <+: events → exec step s front = some t →
    step t e = some t' → C t e

/-- Every event of a run meets `C` in the state in which it comes, be it
possible there or not. -/
def EachEvent (step : σ → ε → Option σ) (C : σ → ε → Prop) (s : σ) (events : List ε) : Prop :=
  ∀ front e t, front ++ [e] <+: events → exec step s front = some t → C t e

section Rule

variable {I P : σ → Prop} {C : σ → ε → Prop} {s : σ} {events : List ε}

/-- What holds at the start and survives every step of the run holds
throughout. -/
theorem throughout_of_step (h0 : I s)
    (hkeep : ∀ front e t t', front ++ [e] <+: events → exec step s front = some t → I t →
      step t e = some t' → I t') : Throughout step I s events := by
  have hprefix : ∀ front, front <+: events → ∀ t, exec step s front = some t → I t := by
    refine prefix_induction ?_ ?_
    · intro t ht
      cases ht
      exact h0
    · intro front e hfront ih t' ht'
      rw [exec_snoc] at ht'
      obtain ⟨t, ht, hstep⟩ := Option.bind_eq_some_iff.mp ht'
      exact hkeep front e t t' hfront ht (ih t ht) hstep
  exact fun front t hfront ht => hprefix front hfront t ht

/-- What every step meeting `C` keeps holds throughout a run of such steps. -/
theorem EachStep.throughout (h0 : I s)
    (hkeep : ∀ {t e t'}, I t → step t e = some t' → C t e → I t')
    (h : EachStep step C s events) : Throughout step I s events :=
  throughout_of_step h0 fun front e t t' hfront ht hI hstep =>
    hkeep hI hstep (h front e t t' hfront ht hstep)

/-- **The condition is exact**: if the invariant gives `P`, and a step out of
it that gives `P` again meets `C`, then `P` throughout means `C` at each
step. -/
theorem throughout_iff (h0 : I s)
    (hkeep : ∀ {t e t'}, I t → step t e = some t' → C t e → I t')
    (hsafe : ∀ {t}, I t → P t)
    (hbreak : ∀ {t e t'}, I t → step t e = some t' → P t' → C t e) :
    Throughout step P s events ↔ EachStep step C s events := by
  constructor
  · intro h
    have hafter : ∀ front e t t', front ++ [e] <+: events → exec step s front = some t →
        step t e = some t' → P t' := by
      intro front e t t' hfront ht hstep
      refine h (front ++ [e]) t' hfront ?_
      rw [exec_snoc, ht]
      exact hstep
    have hinv : Throughout step I s events :=
      throughout_of_step h0 fun front e t t' hfront ht hI hstep =>
        hkeep hI hstep (hbreak hI hstep (hafter front e t t' hfront ht hstep))
    intro front e t t' hfront ht hstep
    have hI := hinv front t ((List.prefix_append ..).trans hfront) ht
    exact hbreak hI hstep (hafter front e t t' hfront ht hstep)
  · intro h front t hfront ht
    exact hsafe (h.throughout h0 hkeep front t hfront ht)

/-- **From one condition on the events to another**: it is enough that it
follows as long as the invariant holds, which events meeting the first keep. -/
theorem EachEvent.imp {C' : σ → ε → Prop} (h0 : I s)
    (hkeep : ∀ {t e t'}, e ∈ events → I t → step t e = some t' → C t e → I t')
    (himp : ∀ {t e}, e ∈ events → I t → C t e → C' t e) (h : EachEvent step C s events) :
    EachEvent step C' s events := by
  have hinv : Throughout step I s events :=
    throughout_of_step h0 fun front e t t' hfront ht hI hstep =>
      hkeep (mem_of_snoc hfront) hI hstep (h front e t hfront ht)
  intro front e t hfront ht
  have hI := hinv front t ((List.prefix_append ..).trans hfront) ht
  exact himp (mem_of_snoc hfront) hI (h front e t hfront ht)

/-- **Two conditions on the events of a run** that agree as long as the
invariant holds, which events meeting them keep. -/
theorem eachEvent_iff {C' : σ → ε → Prop} (h0 : I s)
    (hkeep : ∀ {t e t'}, I t → step t e = some t' → C t e → I t')
    (hiff : ∀ {t e}, e ∈ events → I t → (C' t e ↔ C t e)) :
    EachEvent step C' s events ↔ EachEvent step C s events := by
  constructor
  · intro h
    exact h.imp h0 (fun he hI hstep hC => hkeep hI hstep ((hiff he hI).mp hC))
      fun he hI => (hiff he hI).mp
  · intro h
    exact h.imp h0 (fun _ hI hstep => hkeep hI hstep) fun he hI => (hiff he hI).mpr

section Progress

variable {e : ε}

theorem EachEvent.head (h : EachEvent step C s (e :: events)) : C s e :=
  h [] e s (by simp) rfl

theorem EachEvent.tail (h : EachEvent step C s (e :: events)) {s' : σ}
    (hstep : step s e = some s') : EachEvent step C s' events := by
  intro front e' t hfront ht
  refine h (e :: front) e' t ?_ ?_
  · rw [List.cons_append, List.cons_prefix_cons]
    exact ⟨rfl, hfront⟩
  · rw [exec, hstep]
    exact ht

/-- **Progress**: if an event that meets `C` is possible wherever the
invariant holds, and keeps it, a run of such events gets to its end. -/
theorem EachEvent.exec_eq_some
    (hstep : ∀ {t e}, I t → C t e → ∃ t', step t e = some t' ∧ I t') (h0 : I s)
    (h : EachEvent step C s events) : ∃ s', exec step s events = some s' ∧ I s' := by
  induction events generalizing s with
  | nil => exact ⟨s, rfl, h0⟩
  | cons e rest ih =>
      obtain ⟨t, ht, hI⟩ := hstep h0 h.head
      obtain ⟨s', hrest, hI'⟩ := ih hI (h.tail ht)
      exact ⟨s', by rw [exec, ht]; exact hrest, hI'⟩

end Progress

end Rule

end Exec

end DistributedAscii.Lib.Runs
