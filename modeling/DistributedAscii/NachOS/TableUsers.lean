import DistributedAscii.Lib.Runs
import DistributedAscii.NachOS.OpenFilesTable

/-!
# NachOS — who uses an open-file table

`new Thread` makes a table of its own for every thread. `NachOS_Fork` gives
the child the table of its parent in the place of it, and counts the child;
`NachosForkThread` counts it again when it starts. `NachOS_Exit` counts
nobody off, and nobody deletes the table that was replaced. So the counts are
right as long as there is nothing to count.

What `Fork` and `Exit` do with the address space is not part of this.
-/

namespace DistributedAscii.NachOS

open Lib.Runs

/-- Where a thread is: on the ready list in front of `NachosForkThread`, in
its own code, in front of a statement of `NachOS_Fork`, or finished. The
child is nobody's but its parent's until `newT->Fork`; with it goes the
number of its table. -/
inductive UserPoint where
  | ready
  | running
  | inP
  | inFork
  | newThread (table : Nat)
  | shared (table : Nat)
  | counted (table : Nat)
  | forked
  | finished
deriving DecidableEq, Repr

/-- How often a thread has been counted, the child that it is about to fork
included; the first one counts as if it had been forked. -/
def UserPoint.credit : UserPoint → Nat
  | .ready => 1
  | .counted _ => 3
  | _ => 2

/-- In front of `newT->Fork`. -/
def UserPoint.Forking : UserPoint → Prop
  | .inP | .inFork | .newThread _ | .shared _ | .counted _ => True
  | _ => False

/-- `table` is `OpenFilesTable`. -/
structure UserThread where
  point : UserPoint
  table : Nat
deriving DecidableEq, Repr

/-- Tables and threads by number; `console` tells whether `Console` is free. -/
structure TableUsers where
  tables : List NachosOpenFilesTable
  threads : List UserThread
  console : Bool

namespace TableUsers

/-- Two system calls, and the next statement of a thread that is in the
kernel. -/
inductive Event where
  | fork (t : Nat)
  | exit (t : Nat)
  | advance (t : Nat)
deriving DecidableEq, Repr

/-- The program is loaded. -/
def start : TableUsers where
  tables := [.new]
  threads := [⟨.running, 0⟩]
  console := true

def moveTo (s : TableUsers) (t : Nat) (thread : UserThread) (p : UserPoint) : TableUsers :=
  { s with threads := s.threads.set t { thread with point := p } }

/-- `addThread` of a table. -/
def count (s : TableUsers) (table : Nat) : TableUsers :=
  { s with tables := s.tables.modify table .addThread }

/-- `NachOS_Fork` and `NachosForkThread`, one statement at a time. -/
def advance (s : TableUsers) (t : Nat) (thread : UserThread) : Option TableUsers :=
  match thread.point with
  | .ready => some ((s.count thread.table).moveTo t thread .running)
  | .inP => if s.console then some { s.moveTo t thread .inFork with console := false } else none
  | .inFork =>
      some { s.moveTo t thread (.newThread s.tables.length) with tables := s.tables ++ [.new] }
  | .newThread _ => some (s.moveTo t thread (.shared thread.table))
  | .shared table => some ((s.count thread.table).moveTo t thread (.counted table))
  | .counted table =>
      let s := s.moveTo t thread .forked
      some { s with threads := s.threads ++ [⟨.ready, table⟩] }
  | .forked => some { s.moveTo t thread .running with console := true }
  | .running | .finished => none

def step (s : TableUsers) : Event → Option TableUsers
  | .fork t => s.threads[t]?.bind fun thread =>
      if thread.point = .running then some (s.moveTo t thread .inP) else none
  | .exit t => s.threads[t]?.bind fun thread =>
      if thread.point = .running then some (s.moveTo t thread .finished) else none
  | .advance t => s.threads[t]?.bind fun thread => s.advance t thread

/-- Nobody is in a system call, and every child has started. -/
def Quiet (s : TableUsers) : Prop :=
  ∀ thread ∈ s.threads, thread.point = .running ∨ thread.point = .finished

/-- The threads that have not exited and use a table. -/
def users (s : TableUsers) (table : Nat) : Nat :=
  s.threads.countP fun thread => thread.point ≠ .finished ∧ thread.table = table

/-- Every table knows how many use it. -/
def Known (s : TableUsers) : Prop :=
  ∀ i table, s.tables[i]? = some table → table.usage = (s.users i : Int)

/-! ## What is counted -/

/-- The count of all threads together. -/
def credits (threads : List UserThread) : Nat :=
  (threads.map (·.point.credit)).sum

theorem credits_set {threads : List UserThread} {t : Nat} {thread : UserThread}
    (ht : threads[t]? = some thread) (p : UserPoint) :
    credits (threads.set t { thread with point := p }) + thread.point.credit =
      credits threads + p.credit := by
  induction threads generalizing t with
  | nil => cases ht
  | cons head rest ih =>
      cases t with
      | zero =>
          cases ht
          simp [credits]
          omega
      | succ t =>
          have hrest := ih (by simpa using ht)
          simp only [credits, List.set_cons_succ, List.map_cons, List.sum_cons] at *
          omega

/-- Everybody uses the first table, and it has the credit of them all. -/
structure Sound (s : TableUsers) : Prop where
  table : ∀ thread ∈ s.threads, thread.table = 0
  child : ∀ thread ∈ s.threads, ∀ table,
    thread.point = .shared table ∨ thread.point = .counted table → table = 0
  usage : ∃ first rest, s.tables = first :: rest ∧ first.usage = credits s.threads - 1

namespace Sound

variable {s s' : TableUsers} {t : Nat} {thread : UserThread} {p : UserPoint}

theorem start : TableUsers.start.Sound where
  table := by simp [TableUsers.start]
  child := by simp [TableUsers.start]
  usage := ⟨_, _, rfl, by decide⟩

/-- A thread moves on, and with it the count of the first table. -/
theorem moveTo (h : s.Sound) (ht : s.threads[t]? = some thread)
    (hchild : ∀ table, p = .shared table ∨ p = .counted table → table = 0)
    {first : NachosOpenFilesTable} {rest : List NachosOpenFilesTable} {console : Bool}
    (husage : first.usage = credits s.threads + p.credit - thread.point.credit - 1) :
    Sound ⟨first :: rest, (s.moveTo t thread p).threads, console⟩ := by
  have hthread := h.table thread (List.mem_of_getElem? ht)
  refine ⟨fun u hu => ?_, fun u hu => ?_, first, rest, rfl, ?_⟩
  · rcases List.mem_or_eq_of_mem_set hu with hu | rfl
    · exact h.table u hu
    · exact hthread
  · rcases List.mem_or_eq_of_mem_set hu with hu | rfl
    · exact h.child u hu
    · exact hchild
  · have hset := credits_set ht p
    simp only [TableUsers.moveTo]
    omega

/-- The tables change behind the first one at most, and the credit does not. -/
theorem move (h : s.Sound) (ht : s.threads[t]? = some thread) (p : UserPoint)
    (hchild : ∀ table, p = .shared table ∨ p = .counted table → table = 0)
    (hcredit : p.credit = thread.point.credit) (tables : List NachosOpenFilesTable)
    (console : Bool) :
    Sound ⟨s.tables ++ tables, (s.moveTo t thread p).threads, console⟩ := by
  obtain ⟨first, rest, htables, husage⟩ := h.usage
  rw [htables]
  exact h.moveTo ht hchild (by omega)

theorem stay (h : s.Sound) (ht : s.threads[t]? = some thread) (p : UserPoint)
    (hchild : ∀ table, p = .shared table ∨ p = .counted table → table = 0)
    (hcredit : p.credit = thread.point.credit) (console : Bool) :
    Sound ⟨s.tables, (s.moveTo t thread p).threads, console⟩ := by
  simpa using h.move ht p hchild hcredit [] console

/-- The thread is counted, in the table of all. -/
theorem count (h : s.Sound) (ht : s.threads[t]? = some thread)
    (hchild : ∀ table, p = .shared table ∨ p = .counted table → table = 0)
    (hcredit : p.credit = thread.point.credit + 1) :
    ((s.count thread.table).moveTo t thread p).Sound := by
  obtain ⟨first, rest, htables, husage⟩ := h.usage
  have hcount : (s.count thread.table).tables = first.addThread :: rest := by
    rw [TableUsers.count, h.table thread (List.mem_of_getElem? ht), htables]
    rfl
  have hmoved : Sound ⟨first.addThread :: rest, (s.moveTo t thread p).threads, s.console⟩ := by
    refine h.moveTo ht hchild ?_
    show first.usage + 1 = _
    omega
  rwa [← hcount] at hmoved

/-- The child comes to the ready list. -/
theorem append (h : s.Sound) (ht : s.threads[t]? = some thread)
    (hpoint : thread.point = .counted 0) :
    Sound ⟨s.tables, (s.moveTo t thread .forked).threads ++ [⟨.ready, 0⟩], s.console⟩ := by
  have hthread := h.table thread (List.mem_of_getElem? ht)
  obtain ⟨first, rest, htables, husage⟩ := h.usage
  have hmember : ∀ u ∈ (s.moveTo t thread .forked).threads ++ [⟨.ready, 0⟩],
      u ∈ s.threads ∨ u = { thread with point := .forked } ∨ u = ⟨.ready, 0⟩ := by
    intro u hu
    rcases List.mem_append.mp hu with hu | hu
    · exact (List.mem_or_eq_of_mem_set hu).imp_right .inl
    · exact .inr (.inr (List.mem_singleton.mp hu))
  refine ⟨fun u hu => ?_, fun u hu => ?_, first, rest, htables, ?_⟩
  · obtain hu | rfl | rfl := hmember u hu
    · exact h.table u hu
    · exact hthread
    · rfl
  · obtain hu | rfl | rfl := hmember u hu
    · exact h.child u hu
    · simp
    · simp
  · -- what the forking thread has counted for the child goes over to it
    have hset : credits (s.moveTo t thread .forked).threads + 3 = credits s.threads + 2 := by
      have hset := credits_set ht .forked
      rwa [hpoint] at hset
    have happend : credits ((s.moveTo t thread .forked).threads ++ [⟨.ready, 0⟩]) =
        credits (s.moveTo t thread .forked).threads + 1 := by
      simp [credits, UserPoint.credit]
    show first.usage = credits ((s.moveTo t thread .forked).threads ++ [⟨.ready, 0⟩]) - 1
    omega

theorem advance (h : s.Sound) (ht : s.threads[t]? = some thread)
    (hstep : s.advance t thread = some s') : s'.Sound := by
  have hmember := List.mem_of_getElem? ht
  simp only [TableUsers.advance] at hstep
  cases hpoint : thread.point with
  | ready =>
      rw [hpoint] at hstep
      cases hstep
      exact h.count ht (by simp) (by simp [hpoint, UserPoint.credit])
  | inP =>
      rw [hpoint] at hstep
      obtain ⟨-, hstep⟩ := Option.ite_none_right_eq_some.mp hstep
      cases hstep
      exact h.stay ht .inFork (by simp) (by simp [hpoint, UserPoint.credit]) false
  | inFork =>
      rw [hpoint] at hstep
      cases hstep
      exact h.move ht (.newThread _) (by simp) (by simp [hpoint, UserPoint.credit]) [.new] s.console
  | newThread a =>
      rw [hpoint] at hstep
      cases hstep
      exact h.stay ht (.shared thread.table) (by simpa using h.table thread hmember)
        (by simp [hpoint, UserPoint.credit]) s.console
  | shared a =>
      rw [hpoint] at hstep
      cases hstep
      have ha := h.child thread hmember a (.inl hpoint)
      exact h.count ht (by simp [ha]) (by simp [hpoint, UserPoint.credit])
  | counted a =>
      rw [hpoint] at hstep
      cases hstep
      obtain rfl := h.child thread hmember a (.inr hpoint)
      exact h.append ht hpoint
  | forked =>
      rw [hpoint] at hstep
      cases hstep
      exact h.stay ht .running (by simp) (by simp [hpoint, UserPoint.credit]) true
  | running | finished =>
      rw [hpoint] at hstep
      cases hstep

theorem step (h : s.Sound) {e : Event} (hstep : TableUsers.step s e = some s') : s'.Sound := by
  cases e with
  | fork t =>
      obtain ⟨thread, ht, hstep⟩ := Option.bind_eq_some_iff.mp hstep
      obtain ⟨hpoint, hstep⟩ := Option.ite_none_right_eq_some.mp hstep
      cases hstep
      exact h.stay ht .inP (by simp) (by simp [hpoint, UserPoint.credit]) s.console
  | exit t =>
      obtain ⟨thread, ht, hstep⟩ := Option.bind_eq_some_iff.mp hstep
      obtain ⟨hpoint, hstep⟩ := Option.ite_none_right_eq_some.mp hstep
      cases hstep
      exact h.stay ht .finished (by simp) (by simp [hpoint, UserPoint.credit]) s.console
  | advance t =>
      obtain ⟨thread, ht, hstep⟩ := Option.bind_eq_some_iff.mp hstep
      exact h.advance ht hstep

/-- At a quiet moment each thread has been counted twice. -/
theorem usage_of_quiet (h : s.Sound) (hquiet : s.Quiet) :
    ∃ first, s.tables[0]? = some first ∧ first.usage = 2 * (s.threads.length : Int) - 1 := by
  obtain ⟨first, rest, htables, husage⟩ := h.usage
  have hcredit : s.threads.map (·.point.credit) = List.replicate s.threads.length 2 := by
    refine List.eq_replicate_iff.mpr ⟨List.length_map .., fun n hn => ?_⟩
    obtain ⟨thread, hthread, rfl⟩ := List.mem_map.mp hn
    obtain hpoint | hpoint := hquiet thread hthread <;> rw [hpoint] <;> rfl
  refine ⟨first, by rw [htables]; rfl, ?_⟩
  rw [husage, credits, hcredit, List.sum_replicate, smul_eq_mul]
  push_cast
  omega

/-- That is as many as there are for the first thread alone. -/
theorem first_of_known (h : s.Sound) (hquiet : s.Quiet) (hknown : s.Known) :
    s.threads.length = 1 ∧ ∀ thread ∈ s.threads, thread.point ≠ .finished := by
  obtain ⟨first, hfirst, husage⟩ := h.usage_of_quiet hquiet
  have husers := hknown 0 first hfirst
  -- `2 n - 1` users among `n` threads
  have hle : s.users 0 ≤ s.threads.length := List.countP_le_length
  have hall : s.users 0 = s.threads.length := by omega
  refine ⟨by omega, fun thread hthread => ?_⟩
  have := List.countP_eq_length.mp hall thread hthread
  simp only [ne_eq, decide_eq_true_eq] at this
  exact this.1

end Sound

/-! ## What is left of a call -/

/-- The next point of a thread. -/
inductive Moves : Event → UserPoint → UserPoint → Prop where
  | fork {t} : Moves (.fork t) .running .inP
  | exit {t} : Moves (.exit t) .running .finished
  | start {t} : Moves (.advance t) .ready .running
  | P {t} : Moves (.advance t) .inP .inFork
  | new {t a} : Moves (.advance t) .inFork (.newThread a)
  | share {t a b} : Moves (.advance t) (.newThread a) (.shared b)
  | count {t a} : Moves (.advance t) (.shared a) (.counted a)
  | append {t a} : Moves (.advance t) (.counted a) .forked
  | V {t} : Moves (.advance t) .forked .running

/-- The other threads stay. -/
theorem mem_set_of_ne {threads : List UserThread} {t j : Nat} (hj : j < threads.length)
    (hne : t ≠ j) (thread : UserThread) (children : List UserThread) :
    threads[j] ∈ threads.set t thread ++ children := by
  have hget : (threads.set t thread)[j]? = some threads[j] := by
    rw [List.getElem?_set_ne hne, List.getElem?_eq_getElem hj]
  exact List.mem_append_left _ (List.mem_of_getElem? hget)

/-- What a step does to the threads. -/
theorem threads_of_step {s s' : TableUsers} {e : Event} (h : step s e = some s') :
    ∃ t thread p children, s.threads[t]? = some thread ∧ Moves e thread.point p ∧
      s'.threads = s.threads.set t { thread with point := p } ++ children ∧
      (p = .forked → children ≠ []) := by
  cases e with
  | fork t =>
      obtain ⟨thread, ht, h⟩ := Option.bind_eq_some_iff.mp h
      obtain ⟨hpoint, h⟩ := Option.ite_none_right_eq_some.mp h
      cases h
      exact ⟨t, thread, .inP, [], ht, hpoint ▸ .fork, (List.append_nil _).symm, nofun⟩
  | exit t =>
      obtain ⟨thread, ht, h⟩ := Option.bind_eq_some_iff.mp h
      obtain ⟨hpoint, h⟩ := Option.ite_none_right_eq_some.mp h
      cases h
      exact ⟨t, thread, .finished, [], ht, hpoint ▸ .exit, (List.append_nil _).symm, nofun⟩
  | advance t =>
      obtain ⟨thread, ht, h⟩ := Option.bind_eq_some_iff.mp h
      simp only [advance] at h
      cases hpoint : thread.point with
      | ready =>
          rw [hpoint] at h
          cases h
          exact ⟨t, thread, .running, [], ht, hpoint ▸ .start, (List.append_nil _).symm, nofun⟩
      | inP =>
          rw [hpoint] at h
          obtain ⟨-, h⟩ := Option.ite_none_right_eq_some.mp h
          cases h
          exact ⟨t, thread, .inFork, [], ht, hpoint ▸ .P, (List.append_nil _).symm, nofun⟩
      | inFork =>
          rw [hpoint] at h
          cases h
          exact ⟨t, thread, .newThread s.tables.length, [], ht, hpoint ▸ .new,
            (List.append_nil _).symm, nofun⟩
      | newThread a =>
          rw [hpoint] at h
          cases h
          exact ⟨t, thread, .shared thread.table, [], ht, hpoint ▸ .share,
            (List.append_nil _).symm, nofun⟩
      | shared a =>
          rw [hpoint] at h
          cases h
          exact ⟨t, thread, .counted a, [], ht, hpoint ▸ .count, (List.append_nil _).symm, nofun⟩
      | counted a =>
          rw [hpoint] at h
          cases h
          exact ⟨t, thread, .forked, [⟨.ready, a⟩], ht, hpoint ▸ .append, rfl, fun _ => nofun⟩
      | forked =>
          rw [hpoint] at h
          cases h
          exact ⟨t, thread, .running, [], ht, hpoint ▸ .V, (List.append_nil _).symm, nofun⟩
      | running | finished =>
          rw [hpoint] at h
          cases h

/-- There is a child, or there will be one. -/
def HasForked (s : TableUsers) : Prop :=
  2 ≤ s.threads.length ∨ ∃ thread ∈ s.threads, thread.point.Forking

def HasFinished (s : TableUsers) : Prop :=
  ∃ thread ∈ s.threads, thread.point = .finished

section Marks

variable {s s' : TableUsers} {e : Event}

theorem HasForked.step (h : s.HasForked) (hstep : TableUsers.step s e = some s') :
    s'.HasForked := by
  obtain ⟨t, thread, p, children, ht, hmoves, hthreads, hchildren⟩ := threads_of_step hstep
  have hlength : s'.threads.length = s.threads.length + children.length := by
    rw [hthreads, List.length_append, List.length_set]
  rcases h with hmany | ⟨u, hu, hforking⟩
  · exact .inl (by omega)
  obtain ⟨j, hj, rfl⟩ := List.getElem_of_mem hu
  by_cases htj : t = j
  · -- the thread goes on with its `Fork`, or there is the child
    subst htj
    rw [List.getElem?_eq_getElem hj, Option.some.injEq] at ht
    subst ht
    by_cases hp : p = .forked
    · have := List.length_pos_of_ne_nil (hchildren hp)
      exact .inl (by omega)
    · refine .inr ⟨{ s.threads[t] with point := p }, ?_, ?_⟩
      · rw [hthreads]
        exact List.mem_append_left _ (List.mem_set hj _)
      · generalize s.threads[t].point = q at hmoves hforking
        cases hmoves with
        | fork | exit | start | V => cases hforking
        | P | new | share | count => trivial
        | append => exact absurd rfl hp
  · refine .inr ⟨s.threads[j], ?_, hforking⟩
    rw [hthreads]
    exact mem_set_of_ne hj htj _ children

theorem HasFinished.step (h : s.HasFinished) (hstep : TableUsers.step s e = some s') :
    s'.HasFinished := by
  obtain ⟨t, thread, p, children, ht, hmoves, hthreads, -⟩ := threads_of_step hstep
  obtain ⟨u, hu, hfinished⟩ := h
  obtain ⟨j, hj, rfl⟩ := List.getElem_of_mem hu
  have htj : t ≠ j := by
    rintro rfl
    rw [List.getElem?_eq_getElem hj, Option.some.injEq] at ht
    subst ht
    rw [hfinished] at hmoves
    cases hmoves
  refine ⟨s.threads[j], ?_, hfinished⟩
  rw [hthreads]
  exact mem_set_of_ne hj htj _ children

/-- A `Fork` or an `Exit`, not what comes in the course of it. -/
def Event.IsCall : Event → Prop
  | .fork _ | .exit _ => True
  | .advance _ => False

/-- A call leaves its mark. -/
theorem marked_of_call (hstep : TableUsers.step s e = some s') (he : e.IsCall) :
    s'.HasForked ∨ s'.HasFinished := by
  obtain ⟨t, thread, p, children, ht, hmoves, hthreads, -⟩ := threads_of_step hstep
  obtain ⟨hlt, -⟩ := List.getElem?_eq_some_iff.mp ht
  have hmem : { thread with point := p } ∈ s'.threads := by
    rw [hthreads]
    exact List.mem_append_left _ (List.mem_set hlt _)
  generalize thread.point = q at hmoves
  cases hmoves with
  | fork => exact .inl (.inr ⟨_, hmem, trivial⟩)
  | exit => exact .inr ⟨_, hmem, rfl⟩
  | start | P | new | share | count | append | V => cases he

/-- Nothing happens without one. -/
theorem step_start {s : TableUsers} (hstep : TableUsers.step start e = some s) : e.IsCall := by
  cases e with
  | fork | exit => trivial
  | advance t =>
      obtain ⟨thread, ht, hstep⟩ := Option.bind_eq_some_iff.mp hstep
      have hthread : thread = ⟨.running, 0⟩ := List.mem_singleton.mp (List.mem_of_getElem? ht)
      subst hthread
      cases hstep

end Marks

/-- The invariant of the runs: nothing has happened, or there is a mark of
it. -/
structure Marked (s : TableUsers) (events : List Event) : Prop where
  sound : s.Sound
  mark : events = [] ∧ s = .start ∨
    (∃ e ∈ events, e.IsCall) ∧ (s.HasForked ∨ s.HasFinished)

theorem marked_of_exec {events : List Event} {s : TableUsers}
    (hrun : exec step start events = some s) : s.Marked events := by
  induction events using List.reverseRecOn generalizing s with
  | nil =>
      cases hrun
      exact ⟨.start, .inl ⟨rfl, rfl⟩⟩
  | append_singleton events e ih =>
      rw [exec_snoc] at hrun
      obtain ⟨t, hfront, hstep⟩ := Option.bind_eq_some_iff.mp hrun
      obtain ⟨hsound, hmark⟩ := ih hfront
      refine ⟨hsound.step hstep, .inr ?_⟩
      -- the first event leaves the mark, the others keep it
      rcases hmark with ⟨-, rfl⟩ | ⟨⟨call, hcall, hiscall⟩, hmark⟩
      · have he := step_start hstep
        exact ⟨⟨e, by simp, he⟩, marked_of_call hstep he⟩
      · exact ⟨⟨call, List.mem_append_left _ hcall, hiscall⟩,
          hmark.imp (·.step hstep) (·.step hstep)⟩

theorem Marked.quiet_known_iff {events : List Event} {s : TableUsers} (h : s.Marked events)
    (hquiet : s.Quiet) : s.Known ↔ ∀ e ∈ events, ¬e.IsCall := by
  obtain ⟨hsound, hmark⟩ := h
  constructor
  · intro hknown
    obtain ⟨hone, hleft⟩ := hsound.first_of_known hquiet hknown
    rcases hmark with ⟨rfl, -⟩ | ⟨-, hforked | hfinished⟩
    · simp
    · -- one thread, and no `Fork` of its in progress
      rcases hforked with hmany | ⟨thread, hthread, hforking⟩
      · omega
      · obtain hpoint | hpoint := hquiet thread hthread
        · rw [hpoint] at hforking
          cases hforking
        · rw [hpoint] at hforking
          cases hforking
    · obtain ⟨thread, hthread, hfinished⟩ := hfinished
      exact absurd hfinished (hleft thread hthread)
  · intro hnone
    rcases hmark with ⟨-, rfl⟩ | ⟨⟨e, he, hcall⟩, -⟩
    · intro i table htable
      cases i with
      | zero =>
          cases htable
          decide
      | succ i => cases htable
    · exact absurd hcall (hnone e he)

/-- **The tables know their users** at the quiet moments of a run exactly if
none of them comes behind a `Fork` or an `Exit`. -/
theorem known_iff (events : List Event) :
    Throughout step (fun s => s.Quiet → s.Known) start events ↔
      ∀ front s, front <+: events → exec step start front = some s → s.Quiet →
        ∀ e ∈ front, ¬e.IsCall := by
  constructor
  · intro h front s hfront hrun hquiet
    exact ((marked_of_exec hrun).quiet_known_iff hquiet).mp (h front s hfront hrun hquiet)
  · intro h front s hfront hrun hquiet
    exact ((marked_of_exec hrun).quiet_known_iff hquiet).mpr (h front s hfront hrun hquiet)

/-- A child is forked, and starts. -/
def oneChild : List Event :=
  [.fork 0, .advance 0, .advance 0, .advance 0, .advance 0, .advance 0, .advance 0, .advance 1]

/-- Its two users are three to the table. -/
theorem not_known : ¬Throughout step (fun s => s.Quiet → s.Known) start oneChild := by
  intro h
  have hrun : (exec step start oneChild).map (fun s =>
      (s.threads, s.tables[0]?.map (·.usage))) =
      some ([⟨.running, 0⟩, ⟨.running, 0⟩], some 3) := by decide
  obtain ⟨s, hexec, hfacts⟩ := Option.map_eq_some_iff.mp hrun
  simp only [Prod.mk.injEq, Option.map_eq_some_iff] at hfacts
  obtain ⟨hthreads, table, htable, husage⟩ := hfacts
  have hquiet : s.Quiet := by
    rw [Quiet, hthreads]
    simp
  have hknown := h _ s (List.prefix_refl _) hexec hquiet 0 table htable
  rw [husage, users, hthreads] at hknown
  revert hknown
  decide

end TableUsers

end DistributedAscii.NachOS
