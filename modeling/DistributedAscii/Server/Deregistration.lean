import DistributedAscii.Server.Registry

/-!
# Server — how a server leaves the registry

An `OFF` datagram erases both maps under the address of its sender, the
monitor erases both under the announced ip, and `ON` fills one map under
each. So a server is removed, by either of the two, exactly if it announces
its own address and shares it with no one that has names.
-/

namespace DistributedAscii.Server

open Lib.Search

/-- From `r` to `r'`, the server of `sender`, announced as `ip`, is gone, and
nothing of any other one. Names stay with an ip that another one announces. -/
structure Removed (r r' : Registry) (sender ip : Bytes) : Prop where
  gone : r'.knownServers[sender]? = none
  forgotten : (∀ (other : Bytes) (port : Int), other ≠ sender →
    r.knownServers[other]? ≠ some (ip, port)) → r'.serverObjects[ip]? = none
  others : ∀ other : Bytes, other ≠ sender →
    r'.knownServers[other]? = r.knownServers[other]?
  names : ∀ (other ip' : Bytes) (port : Int) (objects : List Bytes), other ≠ sender →
    r.knownServers[other]? = some (ip', port) → r.serverObjects[ip']? = some objects →
    r'.serverObjects[ip']? = some objects

/-- All queries to the entry of `sender` fail, every other server answers
with the names that are kept for it. -/
def OnlyFails (r : Registry) (sender : Bytes) (answers : Bytes → List (Option Bytes)) : Prop :=
  monitorQuery (answers sender) = none
    ∧ ∀ (other ip : Bytes) (port : Int), other ≠ sender →
      r.knownServers[other]? = some (ip, port) →
      ∃ objects, monitorQuery (answers other) = some objects
        ∧ ∀ kept, r.serverObjects[ip]? = some kept → kept = objects

/-- The two ways to leave, for one server. -/
def RemovedExactly (r : Registry) (sender ip : Bytes) : Prop :=
  (∀ query message, IsOff message →
      Removed r (processProtocolMessage query message sender r).2 sender ip)
    ∧ ∀ answers, OnlyFails r sender answers →
      Removed r (monitorRound answers r) sender ip

section Off

variable {r : Registry} {sender : Bytes}

/-- `OFF` of a server that announced its own address. -/
theorem removed_off (hfree : ∀ (other : Bytes) (port' : Int), other ≠ sender →
      r.knownServers[other]? = some (sender, port') → r.serverObjects[sender]? = none)
    {query : Query} {message : Bytes} (h : IsOff message) :
    Removed r (processProtocolMessage query message sender r).2 sender sender := by
  rw [processProtocolMessage_isOff h]
  refine ⟨by simp, fun _ => by simp, ?_, ?_⟩
  · intro other hother
    simp [Ne.symm hother]
  · intro other ip' port' objects hother hknown hobjects
    have hne : sender ≠ ip' := by
      rintro rfl
      simp [hfree other port' hother hknown] at hobjects
    simp [hne, hobjects]

end Off

/-! ## A round of the monitor -/

section Round

variable {r : Registry} {sender ip : Bytes} {port : Int}
  {answers : Bytes → List (Option Bytes)}

/-- The visit to an entry of the copy: that of `sender` erases under its
ip, any other one writes the kept names again. -/
theorem monitorVisit_cases (h : OnlyFails r sender answers)
    (hknown : r.knownServers[sender]? = some (ip, port)) {server : Bytes × Bytes × Int}
    (hmem : server ∈ r.knownServers.toList) (r' : Registry) :
    (server.1 = sender ∧ monitorVisit answers r' server
        = { knownServers := r'.knownServers.erase ip
            serverObjects := r'.serverObjects.erase ip })
      ∨ ∃ objects, server.1 ≠ sender
        ∧ (∀ kept, r.serverObjects[server.2.1]? = some kept → kept = objects)
        ∧ monitorVisit answers r' server
          = { r' with serverObjects := r'.serverObjects.insert server.2.1 objects } := by
  obtain ⟨other, ip', port'⟩ := server
  rw [StringMap.mem_toList] at hmem
  by_cases hother : other = sender
  · subst hother
    rw [hknown] at hmem
    obtain ⟨rfl, rfl⟩ := Prod.mk.inj (Option.some.inj hmem)
    exact .inl ⟨rfl, by simp [monitorVisit, h.1, monitorWrite]⟩
  · obtain ⟨objects, hquery, hkept⟩ := h.2 other ip' port' hother hmem
    exact .inr ⟨objects, hother, hkept, by simp [monitorVisit, hquery, monitorWrite]⟩

/-- A round touches the entry under the ip of `sender` only. -/
theorem knownServers_round_of_ne (h : OnlyFails r sender answers)
    (hknown : r.knownServers[sender]? = some (ip, port)) {other : Bytes} (hother : other ≠ ip) :
    (monitorRound answers r).knownServers[other]? = r.knownServers[other]? := by
  refine List.foldlRecOn
    (motive := fun r' : Registry => r'.knownServers[other]? = r.knownServers[other]?) _ _ rfl
    fun r' hr' server hmem => ?_
  rcases monitorVisit_cases h hknown hmem r' with ⟨_, heq⟩ | ⟨objects, _, _, heq⟩
  · rw [heq]
    simp [Ne.symm hother, hr']
  · rw [heq, hr']

/-- Names under another ip stay. -/
theorem serverObjects_round_of_ne (h : OnlyFails r sender answers)
    (hknown : r.knownServers[sender]? = some (ip, port)) {ip' : Bytes} (hip : ip' ≠ ip)
    {objects : List Bytes} (hobjects : r.serverObjects[ip']? = some objects) :
    (monitorRound answers r).serverObjects[ip']? = some objects := by
  refine List.foldlRecOn (motive := fun r' : Registry => r'.serverObjects[ip']? = some objects)
    _ _ hobjects fun r' hr' server hmem => ?_
  rcases monitorVisit_cases h hknown hmem r' with ⟨_, heq⟩ | ⟨objects', _, hkept, heq⟩
  · rw [heq]
    simp [Ne.symm hip, hr']
  · rw [heq]
    by_cases hserver : server.2.1 = ip'
    · rw [hserver] at hkept
      simp [hserver, hkept _ hobjects]
    · simp [hserver, hr']

/-- Behind the visit to `sender` what was erased stays erased, if no later
visit writes it. -/
theorem round_of_visit {P : Registry → Prop}
    (hknown : r.knownServers[sender]? = some (ip, port))
    (hvisit : ∀ r', P (monitorVisit answers r' (sender, ip, port)))
    (hstep : ∀ r', ∀ server ∈ r.knownServers.toList, P r' →
      P (monitorVisit answers r' server)) : P (monitorRound answers r) := by
  have hmem : (sender, ip, port) ∈ r.knownServers.toList :=
    (StringMap.mem_toList _).mpr hknown
  obtain ⟨before, after, hsplit⟩ := List.append_of_mem hmem
  rw [monitorRound, hsplit, List.foldl_append, List.foldl_cons]
  refine List.foldlRecOn _ _ (hvisit _) fun r' hr' server hserver => hstep r' server ?_ hr'
  rw [hsplit]
  exact List.mem_append_right _ (List.mem_cons_of_mem _ hserver)

theorem knownServers_round (h : OnlyFails r sender answers)
    (hknown : r.knownServers[sender]? = some (ip, port)) :
    (monitorRound answers r).knownServers[ip]? = none := by
  refine round_of_visit (P := fun r' => r'.knownServers[ip]? = none) hknown ?_ ?_
  · intro r'
    simp [monitorVisit, h.1, monitorWrite]
  · intro r' server hmem hr'
    rcases monitorVisit_cases h hknown hmem r' with ⟨_, heq⟩ | ⟨objects, _, _, heq⟩
    · rw [heq]
      simp
    · rw [heq, hr']

theorem serverObjects_round (h : OnlyFails r sender answers)
    (hknown : r.knownServers[sender]? = some (ip, port))
    (halone : ∀ (other : Bytes) (port' : Int), other ≠ sender →
      r.knownServers[other]? ≠ some (ip, port')) :
    (monitorRound answers r).serverObjects[ip]? = none := by
  refine round_of_visit (P := fun r' => r'.serverObjects[ip]? = none) hknown ?_ ?_
  · intro r'
    simp [monitorVisit, h.1, monitorWrite]
  · intro r' server hmem hr'
    rcases monitorVisit_cases h hknown hmem r' with ⟨_, heq⟩ | ⟨objects, hother, _, heq⟩
    · rw [heq]
      simp
    · obtain ⟨other, ip', port'⟩ := server
      have hne : ip' ≠ ip := by
        rintro rfl
        exact halone other port' hother ((StringMap.mem_toList _).mp hmem)
      rw [heq]
      simp [hne, hr']

/-- A round in which a server that announced its own address fails. -/
theorem removed_round (hknown : r.knownServers[sender]? = some (sender, port))
    (hfree : ∀ (other : Bytes) (port' : Int), other ≠ sender →
      r.knownServers[other]? = some (sender, port') → r.serverObjects[sender]? = none)
    (h : OnlyFails r sender answers) : Removed r (monitorRound answers r) sender sender := by
  refine ⟨knownServers_round h hknown, serverObjects_round h hknown,
    fun other hother => knownServers_round_of_ne h hknown hother, ?_⟩
  intro other ip' port' objects hother hknown' hobjects
  have hne : ip' ≠ sender := by
    rintro rfl
    simp [hfree other port' hother hknown'] at hobjects
  exact serverObjects_round_of_ne h hknown hne hobjects

end Round

/-! ## Exactly when -/

/-- There is a round in which one server fails and the others answer with
what is kept: the kept names came from an answer. -/
theorem exists_onlyFails (ds : List Datagram) (sender : Bytes) :
    ∃ answers, OnlyFails (handleAll ds) sender answers := by
  have hone : ∀ other : Bytes, ∃ outcomes : List (Option Bytes),
      (other = sender → monitorQuery outcomes = none)
        ∧ (other ≠ sender → ∀ (ip : Bytes) (port : Int),
          (handleAll ds).knownServers[other]? = some (ip, port) →
          ∃ objects, monitorQuery outcomes = some objects
            ∧ ∀ kept, (handleAll ds).serverObjects[ip]? = some kept → kept = objects) := by
    intro other
    by_cases hother : other = sender
    · exact ⟨[], fun _ => rfl, fun hne => absurd hother hne⟩
    cases hknown : (handleAll ds).knownServers[other]? with
    | none => exact ⟨[], fun _ => rfl, fun _ ip port h => by cases h⟩
    | some address =>
        -- the answer that the kept names came from, or an empty list
        obtain ⟨ip, port⟩ := address
        cases hkept : (handleAll ds).serverObjects[ip]? with
        | none =>
            refine ⟨[some (bytes "BEGIN/OK//END")], fun h => absurd h hother, ?_⟩
            intro _ ip' port' h
            obtain ⟨rfl, rfl⟩ := Prod.mk.inj (Option.some.inj h)
            exact ⟨[], by decide, by simp [hkept]⟩
        | some kept =>
            obtain ⟨answer, hanswer⟩ := objectsOf_handleAll ds hkept
            refine ⟨[some answer], fun h => absurd h hother, ?_⟩
            intro _ ip' port' h
            obtain ⟨rfl, rfl⟩ := Prod.mk.inj (Option.some.inj h)
            exact ⟨kept, by simp [monitorQuery, maxRetries, hanswer], by simp [hkept]⟩
  choose answers hsender hothers using hone
  exact ⟨answers, hsender sender rfl, fun other ip port hother h => hothers other hother ip port h⟩

/-- The monitor erases under the announced ip. -/
theorem RemovedExactly.ip_eq {ds : List Datagram} {sender ip : Bytes} {port : Int}
    (hknown : (handleAll ds).knownServers[sender]? = some (ip, port))
    (h : RemovedExactly (handleAll ds) sender ip) : ip = sender := by
  obtain ⟨answers, hfails⟩ := exists_onlyFails ds sender
  by_contra hip
  have hgone := (h.2 answers hfails).gone
  rw [knownServers_round_of_ne hfails hknown (Ne.symm hip), hknown] at hgone
  cases hgone

/-- `OFF` erases the names under the address of the sender. -/
theorem RemovedExactly.unshared {r : Registry} {sender ip : Bytes}
    (h : RemovedExactly r sender ip) (other : Bytes) (port : Int) (hother : other ≠ sender)
    (hshared : r.knownServers[other]? = some (sender, port)) :
    r.serverObjects[sender]? = none := by
  by_contra hnames
  obtain ⟨objects, hobjects⟩ := Option.ne_none_iff_exists'.mp hnames
  have hmessage : IsOff (bytes "BEGIN/OFF/SERVIDOR/") := ⟨by decide, by decide⟩
  have hstays := (h.1 (fun _ _ => none) _ hmessage).names other sender port objects hother
    hshared hobjects
  simp [processProtocolMessage_isOff hmessage] at hstays

/-- **When a server is removed exactly**: if it announced its own address,
and no other one announces that address while names are kept for it. -/
theorem removed_exactly_iff (ds : List Datagram) {sender ip : Bytes} {port : Int}
    (hknown : (handleAll ds).knownServers[sender]? = some (ip, port)) :
    RemovedExactly (handleAll ds) sender ip ↔
      ip = sender ∧ ∀ (other : Bytes) (port' : Int), other ≠ sender →
        (handleAll ds).knownServers[other]? = some (sender, port') →
        (handleAll ds).serverObjects[sender]? = none := by
  constructor
  · intro h
    exact ⟨h.ip_eq hknown, h.unshared⟩
  · rintro ⟨rfl, hfree⟩
    exact ⟨fun query message h => removed_off hfree h,
      fun answers h => removed_round hknown hfree h⟩

/-- Two servers that announced their own addresses. -/
def twoPlaces : List Datagram :=
  [announcedAt (bytes "172.16.0.2") (bytes "80") (bytes "gato"),
    { payload := bytes "BEGIN/ON/SERVIDOR/172.16.0.3/81/END"
      senderIp := bytes "172.16.0.3"
      query := fun _ _ => some (bytes "BEGIN/OK/perro\n/END") }]

theorem removed_exactly_gato :
    RemovedExactly (handleAll twoPlaces) (bytes "172.16.0.2") (bytes "172.16.0.2") := by
  have hservers : (handleAll twoPlaces).knownServers.toList =
      [(bytes "172.16.0.2", bytes "172.16.0.2", 80),
        (bytes "172.16.0.3", bytes "172.16.0.3", 81)] := by decide
  have hknown : (handleAll twoPlaces).knownServers[bytes "172.16.0.2"]? =
      some (bytes "172.16.0.2", 80) := by decide
  refine (removed_exactly_iff twoPlaces hknown).mpr ⟨rfl, ?_⟩
  intro other port' hother h
  have hmem := (StringMap.mem_toList _).mpr h
  rw [hservers, List.mem_cons, List.mem_singleton] at hmem
  obtain hsame | hplace := hmem
  · exact absurd (congrArg Prod.fst hsame) hother
  · -- the other one is at its own address
    have hip : bytes "172.16.0.2" = bytes "172.16.0.3" := congrArg (·.2.1) hplace
    exact absurd hip (by decide)

/-- A server behind another address, as every shipped one is: `OFF` leaves
its names. -/
theorem removed_not_exactly :
    ¬ ∀ (ds : List Datagram) (sender ip : Bytes) (port : Int),
      (handleAll ds).knownServers[sender]? = some (ip, port) →
      RemovedExactly (handleAll ds) sender ip := by
  intro h
  have hexact := h [announcedAt (bytes "10.0.0.1") (bytes "80") (bytes "gato")]
    (bytes "10.0.0.1") (bytes "172.16.0.2") 80 (by decide)
  have hknown : (handleAll [announcedAt (bytes "10.0.0.1") (bytes "80")
      (bytes "gato")]).knownServers[bytes "10.0.0.1"]? = some (bytes "172.16.0.2", 80) := by
    decide
  exact absurd (hexact.ip_eq hknown) (by decide)

end DistributedAscii.Server
