import DistributedAscii.Server.Registry

/-!
# Server — the monitor between the datagrams

`monitorServers` holds the lock three times in a round: to copy the known
servers, and for each of them to write after its queries. Datagrams are
handled anywhere in between. `Fork.step` is one such atomic part of either
thread, and `exec_round` says that a round without datagrams in between is
`monitorRound`.

A list of names that comes back for a server that has left meanwhile is
written under an ip that no known server announces, and stays there.
-/

namespace DistributedAscii.Server

open Lib.Runs

/-- Where `monitorServers` stands, with what is left of its copy. -/
inductive Phase where
  | sleeping
  | visiting (todo : List (Bytes × Bytes × Int))
  | queried (ip : Bytes) (objects : Option (List Bytes)) (todo : List (Bytes × Bytes × Int))

/-- The state that the threads of a fork share, and its monitor. -/
structure Fork where
  registry : Registry
  monitor : Phase

/-- A new fork. -/
def Fork.start : Fork where
  registry := .empty
  monitor := .sleeping

inductive Event where
  /-- `processProtocolMessage`, under the lock -/
  | message (query : Query) (message senderIp : Bytes)
  /-- the copy of the known servers, under the lock -/
  | copy
  /-- the queries to the next server of the copy, without the lock -/
  | queries (answers : List (Option Bytes))
  /-- what the monitor makes of them, under the lock -/
  | write
  /-- the copy is done -/
  | rest

/-- One step of one of the threads, `none` if the monitor is not there. -/
def Fork.step (fork : Fork) : Event → Option Fork
  | .message query message senderIp =>
      some { fork with
        registry := (processProtocolMessage query message senderIp fork.registry).2 }
  | .copy =>
      match fork.monitor with
      | .sleeping => some { fork with monitor := .visiting fork.registry.knownServers.toList }
      | _ => none
  | .queries answers =>
      match fork.monitor with
      | .visiting (server :: todo) =>
          some { fork with monitor := .queried server.2.1 (monitorQuery answers) todo }
      | _ => none
  | .write =>
      match fork.monitor with
      | .queried ip objects todo =>
          some { registry := monitorWrite ip fork.registry objects
                 monitor := .visiting todo }
      | _ => none
  | .rest =>
      match fork.monitor with
      | .visiting [] => some { fork with monitor := .sleeping }
      | _ => none

/-! ## A round on its own -/

/-- The visits to the rest of a copy, as steps. -/
def visits (answers : Bytes → List (Option Bytes)) (todo : List (Bytes × Bytes × Int)) :
    List Event :=
  todo.flatMap fun server => [.queries (answers server.1), .write]

theorem exec_visits (answers : Bytes → List (Option Bytes))
    (todo : List (Bytes × Bytes × Int)) (r : Registry) :
    exec Fork.step ⟨r, .visiting todo⟩ (visits answers todo)
      = some ⟨todo.foldl (monitorVisit answers) r, .visiting []⟩ := by
  induction todo generalizing r with
  | nil => rfl
  | cons server todo ih =>
      rw [visits, List.flatMap_cons, exec_append]
      exact ih (monitorVisit answers r server)

/-- **A round without datagrams** is `monitorRound`. -/
theorem exec_round (answers : Bytes → List (Option Bytes)) (r : Registry) :
    exec Fork.step ⟨r, .sleeping⟩
        (.copy :: visits answers r.knownServers.toList ++ [.rest])
      = some ⟨monitorRound answers r, .sleeping⟩ := by
  rw [exec_snoc]
  simp only [exec, Fork.step, Option.bind_some, exec_visits]
  rfl

/-! ## Ghosts -/

/-- Every ip with names is announced by a known server. -/
def NoGhost (r : Registry) : Prop :=
  ∀ ip : Bytes, r.serverObjects[ip]?.isSome →
    ∃ (sender : Bytes) (port : Int), r.knownServers[sender]? = some (ip, port)

/-- Every name that is listed has a server to ask for it. -/
def Findable (r : Registry) : Prop :=
  ∀ name ∈ listObjects r, (routeGet r name).isSome

/-- Every known server announced its own address. -/
def OwnAddress (r : Registry) : Prop :=
  ∀ (sender ip : Bytes) (port : Int), r.knownServers[sender]? = some (ip, port) → ip = sender

/-- The datagram announces the address that it comes from, if any. -/
def Honest : Event → Prop
  | .message _ message senderIp =>
      ∀ ip port, announced message = some (ip, port) → ip = senderIp
  | _ => True

/-- A list that the monitor is about to write is one of a known server. -/
def StillKnown (fork : Fork) : Prop :=
  ∀ ip objects todo, fork.monitor = .queried ip (some objects) todo →
    ∃ (sender : Bytes) (port : Int), fork.registry.knownServers[sender]? = some (ip, port)

section Registry

variable {r : Registry}

/-- Without ghosts the routing finds what is listed. -/
theorem NoGhost.findable (h : NoGhost r) : Findable r := by
  intro name hname
  simp only [listObjects, List.mem_flatMap, Prod.exists] at hname
  obtain ⟨ip, objects, hmem, hname⟩ := hname
  have hobjects := (StringMap.mem_toList _).mp hmem
  obtain ⟨sender, port, hknown⟩ := h ip (by simp [hobjects])
  have hserver := (StringMap.mem_toList _).mpr hknown
  rw [routeGet, Option.isSome_map, List.find?_isSome]
  exact ⟨_, hserver, by simp [hasObject, hobjects, hname]⟩

theorem OwnAddress.off (h : OwnAddress r) (ip : Bytes) : OwnAddress (r.off ip) := by
  intro sender ip' port hknown
  rw [Registry.knownServers_off] at hknown
  split at hknown
  · cases hknown
  · exact h sender ip' port hknown

theorem OwnAddress.on (h : OwnAddress r) (ip : Bytes) (port : Int)
    (objects : Option (List Bytes)) : OwnAddress (r.on ip ip port objects) := by
  intro sender ip' port' hknown
  rw [Registry.knownServers_on] at hknown
  split at hknown
  · rename_i hsender
    rw [← hsender]
    exact (congrArg Prod.fst (Option.some.inj hknown)).symm
  · exact h sender ip' port' hknown

/-- A server that leaves takes its names along. -/
theorem NoGhost.off (h : NoGhost r) (hown : OwnAddress r) (ip : Bytes) :
    NoGhost (r.off ip) := by
  intro k hk
  rw [Registry.serverObjects_off] at hk
  split at hk
  · cases hk
  · rename_i hne
    obtain ⟨sender, port, hknown⟩ := h k hk
    obtain rfl := hown sender k port hknown
    exact ⟨k, port, by rw [Registry.knownServers_off, if_neg hne, hknown]⟩

/-- A server that comes brings the names for its own ip. -/
theorem NoGhost.on (h : NoGhost r) (hown : OwnAddress r) (ip : Bytes) (port : Int)
    (objects : Option (List Bytes)) : NoGhost (r.on ip ip port objects) := by
  intro k hk
  by_cases hip : ip = k
  · exact ⟨ip, port, by rw [Registry.knownServers_on, if_pos rfl, hip]⟩
  · have hold : r.serverObjects[k]?.isSome := by
      cases objects with
      | none => exact hk
      | some objects => rwa [Registry.serverObjects_on_some, if_neg hip] at hk
    obtain ⟨sender, port', hknown⟩ := h k hold
    obtain rfl := hown sender k port' hknown
    exact ⟨k, port', by rw [Registry.knownServers_on, if_neg hip, hknown]⟩

end Registry

/-! ## Steps -/

section Steps

variable {fork fork' : Fork} {e : Event}

/-- **What a step does to the registry**: a datagram's operation, nothing, a
server taken out, or a list written back. -/
theorem Fork.step_registry (h : fork.step e = some fork') :
    (∃ query message senderIp, e = .message query message senderIp ∧ fork'.registry
        = (processProtocolMessage query message senderIp fork.registry).2)
      ∨ fork'.registry = fork.registry
      ∨ (∃ ip, fork'.registry = fork.registry.off ip)
      ∨ ∃ ip objects todo, e = .write ∧ fork.monitor = .queried ip (some objects) todo
        ∧ fork'.registry = { fork.registry with
            serverObjects := fork.registry.serverObjects.insert ip objects } := by
  cases e with
  | message query message senderIp =>
      exact .inl ⟨query, message, senderIp, rfl, by rw [← Option.some.inj h]⟩
  | copy =>
      simp only [Fork.step] at h
      split at h
      · exact .inr (.inl (by rw [← Option.some.inj h]))
      · cases h
  | queries answers =>
      simp only [Fork.step] at h
      split at h
      · exact .inr (.inl (by rw [← Option.some.inj h]))
      · cases h
  | write =>
      simp only [Fork.step] at h
      split at h
      · rename_i ip objects todo hmonitor
        right; right
        rw [← Option.some.inj h]
        cases objects with
        | none => exact .inl ⟨ip, rfl⟩
        | some objects => exact .inr ⟨ip, objects, todo, rfl, hmonitor, rfl⟩
      · cases h
  | rest =>
      simp only [Fork.step] at h
      split at h
      · exact .inr (.inl (by rw [← Option.some.inj h]))
      · cases h

/-- An honest step leaves the registry, takes one ip out, adds a server under
its own address, or writes a list back. -/
theorem Fork.step_honest (h : fork.step e = some fork') (hhonest : Honest e) :
    fork'.registry = fork.registry
      ∨ (∃ ip, fork'.registry = fork.registry.off ip)
      ∨ (∃ ip port objects, fork'.registry = fork.registry.on ip ip port objects)
      ∨ ∃ ip objects todo, e = .write ∧ fork.monitor = .queried ip (some objects) todo
        ∧ fork'.registry = { fork.registry with
            serverObjects := fork.registry.serverObjects.insert ip objects } := by
  obtain ⟨query, message, senderIp, rfl, heq⟩ | hsame | hoff | hwrite := step_registry h
  · rw [heq]
    obtain hsame | hoff | ⟨ip, port, hann, hon⟩ :=
      processProtocolMessage_registry query message senderIp fork.registry
    · exact .inl hsame
    · exact .inr (.inl ⟨senderIp, hoff⟩)
    · obtain rfl := hhonest ip port hann
      exact .inr (.inr (.inl ⟨ip, port, _, hon⟩))
  · exact .inl hsame
  · -- the monitor erases as `OFF` does, by the ip
    exact .inr (.inl hoff)
  · exact .inr (.inr (.inr hwrite))

theorem Fork.step_ownAddress (h : fork.step e = some fork') (hhonest : Honest e)
    (hown : OwnAddress fork.registry) : OwnAddress fork'.registry := by
  obtain heq | ⟨ip, heq⟩ | ⟨ip, port, objects, heq⟩ | ⟨ip, objects, todo, -, -, heq⟩ :=
    step_honest h hhonest
  · rwa [heq]
  · rw [heq]
    exact hown.off ip
  · rw [heq]
    exact hown.on ip port objects
  · rw [heq]
    exact hown

/-- **One step** makes no ghost, if it does not write for a server that has
left. -/
theorem Fork.step_noGhost (h : fork.step e = some fork') (hhonest : Honest e)
    (hown : OwnAddress fork.registry) (hghost : NoGhost fork.registry)
    (hwrite : e = .write → StillKnown fork) : NoGhost fork'.registry := by
  obtain heq | ⟨ip, heq⟩ | ⟨ip, port, objects, heq⟩ | ⟨ip, objects, todo, rfl, hmonitor, heq⟩ :=
    step_honest h hhonest
  · rwa [heq]
  · rw [heq]
    exact hghost.off hown ip
  · rw [heq]
    exact hghost.on hown ip port objects
  · intro k hk
    rw [heq] at hk ⊢
    simp only [StringMap.getElem?_insert] at hk
    split at hk
    · rename_i hk'
      rw [← hk']
      exact hwrite rfl ip objects todo hmonitor
    · exact hghost k hk

/-- A write that leaves no ghost was for a known server. -/
theorem Fork.stillKnown_of_noGhost (h : fork.step .write = some fork')
    (hghost : NoGhost fork'.registry) : StillKnown fork := by
  intro ip objects todo hmonitor
  simp only [Fork.step, hmonitor, Option.some.injEq] at h
  subst h
  exact hghost ip (by simp [monitorWrite])

end Steps

/-! ## Runs -/

/-- The fork after the events of a run. -/
abbrev Fork.after (events : List Event) : Option Fork :=
  exec Fork.step .start events

/-- No state of the run has a ghost, and every listed name is found. -/
def NeverGhosts (events : List Event) : Prop :=
  ∀ front, front <+: events → ∀ fork, Fork.after front = some fork →
    NoGhost fork.registry ∧ Findable fork.registry

/-- Along a run of honest servers every known server is where it says. -/
theorem ownAddress_run {events : List Event} (hhonest : ∀ e ∈ events, Honest e) :
    ∀ front, front <+: events → ∀ fork, Fork.after front = some fork →
      OwnAddress fork.registry := by
  apply prefix_induction
  · intro fork h
    obtain rfl := Option.some.inj h
    intro sender ip port hknown
    simp [Fork.start] at hknown
  · intro front e hfront ih fork h
    rw [Fork.after, exec_snoc, Option.bind_eq_some_iff] at h
    obtain ⟨before, hbefore, hstep⟩ := h
    exact before.step_ownAddress hstep (hhonest e (mem_of_snoc hfront)) (ih before hbefore)

/-- **When there are no ghosts**: along a run of servers that announce their
own addresses there is none exactly if the monitor never writes a list for
a server that has left. -/
theorem no_ghost_iff {events : List Event} (hhonest : ∀ e ∈ events, Honest e) :
    NeverGhosts events
      ↔ ∀ front, front ++ [.write] <+: events → ∀ fork, Fork.after front = some fork →
        StillKnown fork := by
  constructor
  · intro hall front hfront fork hfork
    cases hstep : fork.step .write with
    | none =>
        -- the monitor is not there: nothing is written
        intro ip objects todo hmonitor
        simp [Fork.step, hmonitor] at hstep
    | some fork' =>
        have hafter : Fork.after (front ++ [.write]) = some fork' := by
          rw [Fork.after, exec_snoc, ← Fork.after, hfork]
          exact hstep
        exact fork.stillKnown_of_noGhost hstep (hall _ hfront fork' hafter).1
  · intro hwrites
    have hrun : ∀ front, front <+: events → ∀ fork, Fork.after front = some fork →
        NoGhost fork.registry := by
      apply prefix_induction
      · intro fork h
        obtain rfl := Option.some.inj h
        intro ip hip
        simp [Fork.start] at hip
      · intro front e hfront ih fork h
        have hbefore : front <+: events := (List.prefix_append ..).trans hfront
        rw [Fork.after, exec_snoc, Option.bind_eq_some_iff] at h
        obtain ⟨before, hafter, hstep⟩ := h
        refine before.step_noGhost hstep (hhonest e (mem_of_snoc hfront))
          (ownAddress_run hhonest front hbefore before hafter) (ih before hafter) ?_
        rintro rfl
        exact hwrites front hfront before hafter
    intro front hfront fork hfork
    have hghost := hrun front hfront fork hfork
    exact ⟨hghost, hghost.findable⟩

/-- The `ON` of a server with one drawing, from its own address. -/
def gatoOn : Event :=
  .message (fun _ _ => some (bytes "BEGIN/OK/gato\n/END"))
    (bytes "BEGIN/ON/SERVIDOR/172.16.0.2/80/END") (bytes "172.16.0.2")

theorem honest_gatoOn : Honest gatoOn := by
  intro ip port h
  have hann : announced (bytes "BEGIN/ON/SERVIDOR/172.16.0.2/80/END")
      = some (bytes "172.16.0.2", 80) := by decide
  rw [hann] at h
  exact (congrArg Prod.fst (Option.some.inj h)).symm

/-- A server that leaves. -/
def gatoOff : Event :=
  .message (fun _ _ => none) (bytes "BEGIN/OFF/SERVIDOR/172.16.0.2/80/END") (bytes "172.16.0.2")

theorem honest_gatoOff : Honest gatoOff := by
  intro ip port h
  have hnone : announced (bytes "BEGIN/OFF/SERVIDOR/172.16.0.2/80/END") = none := by decide
  rw [hnone] at h
  cases h

/-- A round in which the server answers, one in which it leaves meanwhile and
does not answer any more, and its return. -/
def leavesInTime : List Event :=
  [gatoOn, .copy, .queries [some (bytes "BEGIN/OK/gato\nperro\n/END")], .write, .rest,
    .copy, gatoOff, .queries [none, none, none], .write, .rest, gatoOn]

def Event.isWrite : Event → Bool
  | .write => true
  | _ => false

/-- The ip for which a list is about to be written. -/
def Phase.writes : Phase → Option Bytes
  | .queried ip (some _) _ => some ip
  | _ => none

theorem stillKnown_leavesInTime {front : List Event} (hfront : front ++ [.write] <+: leavesInTime)
    {fork : Fork} (hfork : Fork.after front = some fork) : StillKnown fork := by
  have hknown : ∀ ip ∈ fork.monitor.writes,
      ∃ server ∈ fork.registry.knownServers.toList, server.2.1 = ip := by
    refine forall_snoc_of_getElem? (P := fun front e => e.isWrite = true →
      ∀ fork ∈ Fork.after front, ∀ ip ∈ fork.monitor.writes,
        ∃ server ∈ fork.registry.knownServers.toList, server.2.1 = ip) ?_ hfront rfl fork hfork
    decide
  intro ip objects todo hmonitor
  obtain ⟨⟨sender, ip', port⟩, hmem, rfl⟩ := hknown ip (by rw [hmonitor]; rfl)
  exact ⟨sender, port, (StringMap.mem_toList _).mp hmem⟩

theorem no_ghost_gato : NeverGhosts leavesInTime := by
  refine (no_ghost_iff ?_).mpr ?_
  · simp only [leavesInTime, List.forall_mem_cons]
    exact ⟨honest_gatoOn, trivial, trivial, trivial, trivial, trivial, honest_gatoOff, trivial,
      trivial, trivial, honest_gatoOn, by simp⟩
  · intro front hfront fork hfork
    exact stillKnown_leavesInTime hfront hfork

/-- The server leaves while the monitor asks it: its list is written back
when it is gone. -/
theorem ghost_after_off :
    ¬ ∀ events : List Event, (∀ e ∈ events, Honest e) → ∀ fork, Fork.after events = some fork →
      NoGhost fork.registry := by
  intro h
  let events : List Event :=
    [gatoOn, .copy, gatoOff, .queries [some (bytes "BEGIN/OK/gato\n/END")], .write]
  have hhonest : ∀ e ∈ events, Honest e := by
    intro e he
    simp only [events, List.mem_cons, List.not_mem_nil, or_false] at he
    rcases he with rfl | rfl | rfl | rfl | rfl
    · exact honest_gatoOn
    · trivial
    · exact honest_gatoOff
    · trivial
    · trivial
  have hend : (Fork.after events).map (fun fork =>
      (fork.registry.serverObjects[bytes "172.16.0.2"]?.isSome,
        fork.registry.knownServers.toList)) = some (true, []) := by decide
  obtain ⟨fork, hfork, hpair⟩ := Option.map_eq_some_iff.mp hend
  obtain ⟨hobjects, hknown⟩ := Prod.mk.inj hpair
  obtain ⟨sender, port, hsender⟩ := h events hhonest fork hfork (bytes "172.16.0.2") hobjects
  have hmem := (StringMap.mem_toList _).mpr hsender
  rw [hknown] at hmem
  cases hmem

end DistributedAscii.Server
