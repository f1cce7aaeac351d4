import DistributedAscii.Server.Registry

/-!
# Server — where a `GET` goes

The registry keeps the port with the sender and the names with the
announced ip, so two senders that announce one ip with different ports
share one list: that of the last one to register. A `GET` reaches a server
that has the drawing as long as such senders do not differ.
-/

namespace DistributedAscii.Server

open Lib.Runs Lib.Search

/-- The query of the datagram gets a list of names. -/
def Answers (d : Datagram) : Prop :=
  ∀ ip port, ∃ objects, (d.query ip port).bind objectsOf = some objects

/-- The list that a datagram brings from exactly this address. -/
def objectsFrom (ip : Bytes) (port : Int) (d : Datagram) : Option (List Bytes) :=
  if announced d.payload = some (ip, port) then (d.query ip port).bind objectsOf else none

/-- The last list that the fork received from exactly this address. -/
def lastObjects (ds : List Datagram) (ip : Bytes) (port : Int) : Option (List Bytes) :=
  ds.reverse.findSome? (objectsFrom ip port)

theorem lastObjects_snoc (ds : List Datagram) (d : Datagram) (ip : Bytes) (port : Int) :
    lastObjects (ds ++ [d]) ip port
      = (objectsFrom ip port d).or (lastObjects ds ip port) := by
  simp only [lastObjects, List.reverse_append, List.reverse_cons, List.reverse_nil,
    List.nil_append, List.cons_append, List.findSome?_cons]
  cases objectsFrom ip port d <;> rfl

/-- The names that a datagram brings are also those that every other server
with the same ip and another port listed last. -/
def Compatible (front : List Datagram) (d : Datagram) : Prop :=
  ∀ ip port objects, announced d.payload = some (ip, port) →
    (d.query ip port).bind objectsOf = some objects →
    ∀ (other : Bytes) (port' : Int), other ≠ d.senderIp → port' ≠ port →
      (handleAll front).knownServers[other]? = some (ip, port') →
      ∃ last, lastObjects front ip port' = some last ∧ objects ⊆ last

/-- What the registry keeps for a known server is on its last list. -/
def Current (ds : List Datagram) : Prop :=
  ∀ (sender ip : Bytes) (port : Int) (objects : List Bytes),
    (handleAll ds).knownServers[sender]? = some (ip, port) →
    (handleAll ds).serverObjects[ip]? = some objects →
    ∃ last, lastObjects ds ip port = some last ∧ objects ⊆ last

/-- **One datagram** that is compatible keeps the registry current. -/
theorem Current.step {front : List Datagram} {d : Datagram} (h : Current front)
    (hanswers : Answers d) (hc : Compatible front d) : Current (front ++ [d]) := by
  intro sender ip port objects hknown hobjects
  rw [handleAll_snoc] at hknown hobjects
  rw [lastObjects_snoc]
  cases hann : announced d.payload with
  | none =>
      -- nothing new: the entries that stay are as current as before
      have hfrom : objectsFrom ip port d = none := by simp [objectsFrom, hann]
      rw [hfrom, Option.none_or]
      by_cases hoff : IsOff d.payload
      · rw [handle, processProtocolMessage_isOff hoff] at hknown hobjects
        simp only [Registry.knownServers_off, Registry.serverObjects_off] at hknown hobjects
        split at hknown
        · cases hknown
        · split at hobjects
          · cases hobjects
          · exact h sender ip port objects hknown hobjects
      · rw [handle, processProtocolMessage_other hann hoff] at hknown hobjects
        exact h sender ip port objects hknown hobjects
  | some address =>
      obtain ⟨ip₀, port₀⟩ := address
      obtain ⟨objects₀, hobjects₀⟩ := hanswers ip₀ port₀
      rw [handle, processProtocolMessage_announced hann, register_registry, hobjects₀]
        at hknown hobjects
      simp only [Registry.knownServers_on, Registry.serverObjects_on_some] at hknown hobjects
      by_cases hip : ip₀ = ip
      · subst hip
        rw [if_pos rfl] at hobjects
        obtain rfl := Option.some.inj hobjects
        by_cases hport : port = port₀
        · subst hport
          exact ⟨objects₀, by simp [objectsFrom, hann, hobjects₀], List.Subset.refl _⟩
        · -- another server with this ip: here the condition is needed
          have hfrom : objectsFrom ip₀ port d = none := by
            simp [objectsFrom, hann, Ne.symm hport]
          rw [hfrom, Option.none_or]
          have hother : sender ≠ d.senderIp := by
            rintro rfl
            rw [if_pos rfl] at hknown
            exact hport (congrArg Prod.snd (Option.some.inj hknown)).symm
          rw [if_neg (Ne.symm hother)] at hknown
          exact hc ip₀ port₀ objects₀ hann hobjects₀ sender port hother hport hknown
      · have hfrom : objectsFrom ip port d = none := by simp [objectsFrom, hann, hip]
        rw [hfrom, Option.none_or]
        rw [if_neg hip] at hobjects
        split at hknown
        · exact absurd (congrArg Prod.fst (Option.some.inj hknown)) hip
        · exact h sender ip port objects hknown hobjects

/-- A `GET` is forwarded to a known server whose ip has the name. -/
theorem routeGet_eq_some {r : Registry} {objectName ip : Bytes} {port : Int}
    (h : routeGet r objectName = some (ip, port)) :
    ∃ (sender : Bytes) (objects : List Bytes), r.knownServers[sender]? = some (ip, port)
      ∧ r.serverObjects[ip]? = some objects ∧ objectName ∈ objects := by
  obtain ⟨⟨sender, address⟩, hfind, rfl⟩ := Option.map_eq_some_iff.mp h
  have hhas := List.find?_some hfind
  have hmem := (StringMap.mem_toList _).mp (List.mem_of_find?_eq_some hfind)
  dsimp only [hasObject] at hhas
  cases hobjects : r.serverObjects[ip]? with
  | none => simp [hobjects] at hhas
  | some objects => exact ⟨sender, objects, hmem, rfl, by simpa [hobjects] using hhas⟩

/-- **Where a `GET` goes**: to a server whose last list has the name, in a
run in which the servers of one ip are compatible. -/
theorem get_routed {ds : List Datagram} (hanswers : ∀ d ∈ ds, Answers d)
    (hc : ∀ front d, front ++ [d] <+: ds → Compatible front d) :
    ∀ front, front <+: ds → ∀ objectName ip port,
      routeGet (handleAll front) objectName = some (ip, port) →
      ∃ last, lastObjects front ip port = some last ∧ objectName ∈ last := by
  have hcurrent : ∀ front, front <+: ds → Current front := by
    apply prefix_induction
    · intro sender ip port objects hknown
      simp at hknown
    · intro front d hfront h
      exact h.step (hanswers d (mem_of_snoc hfront)) (hc front d hfront)
  intro front hfront objectName ip port hroute
  obtain ⟨sender, objects, hknown, hobjects, hmem⟩ := routeGet_eq_some hroute
  obtain ⟨last, hlast, hsub⟩ := hcurrent front hfront sender ip port objects hknown hobjects
  exact ⟨last, hlast, hsub hmem⟩

/-- Two servers with one ip, of which the second has a drawing of the first. -/
def onePlace : List Datagram :=
  [announcedAt (bytes "10.0.0.1") (bytes "80") (bytes "gato\nperro"),
    announcedAt (bytes "10.0.0.2") (bytes "81") (bytes "gato")]

theorem compatible_onePlace :
    ∀ front d, front ++ [d] <+: onePlace → Compatible front d := by
  intro front d hfront
  refine forall_snoc_of_getElem? ?_ hfront
  intro i hi d hd ip port objects hann hobjects other port' hother hport hknown
  have hi' : i < 2 := hi
  interval_cases i
  · simp at hknown
  · obtain rfl := Option.some.inj hd
    have haddress : announced (announcedAt (bytes "10.0.0.2") (bytes "81")
        (bytes "gato")).payload = some (bytes "172.16.0.2", 81) := by decide
    obtain ⟨rfl, rfl⟩ := Prod.mk.inj (Option.some.inj (haddress.symm.trans hann))
    have hnames : objects = [bytes "gato"] :=
      Option.some.inj (hobjects.symm.trans (by decide))
    -- the one that is known has it too
    have hservers : (handleAll (onePlace.take 1)).knownServers.toList =
        [(bytes "10.0.0.1", bytes "172.16.0.2", 80)] := by decide
    have hmem := (StringMap.mem_toList _).mpr hknown
    rw [hservers, List.mem_singleton] at hmem
    obtain ⟨rfl, hplace⟩ := Prod.mk.inj hmem
    obtain rfl := (Prod.mk.inj hplace).2
    exact ⟨[bytes "gato", bytes "perro"], by decide, by rw [hnames]; decide⟩

theorem get_routed_gato :
    ∃ last, lastObjects onePlace (bytes "172.16.0.2") 80 = some last ∧ bytes "gato" ∈ last := by
  refine get_routed ?_ compatible_onePlace _ List.prefix_rfl (bytes "gato") (bytes "172.16.0.2") 80
    (by decide)
  intro d hd ip port
  simp only [onePlace, List.mem_cons, List.not_mem_nil, or_false] at hd
  obtain rfl | rfl := hd
  · exact ⟨[bytes "gato", bytes "perro"],
      show objectsOf (bytes "BEGIN/OK/gato\nperro\n/END") = _ by decide⟩
  · exact ⟨[bytes "gato"], show objectsOf (bytes "BEGIN/OK/gato\n/END") = _ by decide⟩

/-- Two servers with one ip: the list of the second hides that of the first,
and a `GET` for its drawing goes to the first. -/
theorem get_misrouted :
    ¬ ∀ ds : List Datagram, (∀ d ∈ ds, Answers d) → ∀ objectName ip port,
      routeGet (handleAll ds) objectName = some (ip, port) →
      ∃ last, lastObjects ds ip port = some last ∧ objectName ∈ last := by
  intro h
  obtain ⟨last, hlast, hmem⟩ := h
    [announcedAt (bytes "10.0.0.1") (bytes "80") (bytes "a"),
      announcedAt (bytes "10.0.0.2") (bytes "81") (bytes "b")]
    (by
      intro d hd ip port
      simp only [List.mem_cons, List.not_mem_nil, or_false] at hd
      rcases hd with rfl | rfl
      · exact ⟨[bytes "a"], show objectsOf (bytes "BEGIN/OK/a\n/END") = _ by decide⟩
      · exact ⟨[bytes "b"], show objectsOf (bytes "BEGIN/OK/b\n/END") = _ by decide⟩)
    (bytes "b") (bytes "172.16.0.2") 80 (by decide)
  have hfirst : lastObjects
      [announcedAt (bytes "10.0.0.1") (bytes "80") (bytes "a"),
        announcedAt (bytes "10.0.0.2") (bytes "81") (bytes "b")]
      (bytes "172.16.0.2") 80 = some [bytes "a"] := by decide
  rw [hfirst] at hlast
  obtain rfl := Option.some.inj hlast
  exact absurd hmem (by decide)

end DistributedAscii.Server
