import DistributedAscii.Lib.Runs
import DistributedAscii.Server.ForkServer

/-!
# Server — the registry under datagrams

What a datagram can do to the registry, said once: nothing, `off` for its
sender, or `on` with the announced address and the names that the query
brought (`processProtocolMessage_registry`). Everything about runs of the
fork goes through these operations.
-/

namespace DistributedAscii.Server

open Lib.Runs Lib.Search

namespace StringMap

variable {T : Type} (m : StringMap T)

@[simp] theorem getElem?_insert (k a : Bytes) (v : T) :
    (m.insert k v)[a]? = if k = a then some v else m[a]? := by
  simp [Std.ExtTreeMap.getElem?_insert]

@[simp] theorem getElem?_erase (k a : Bytes) :
    (m.erase k)[a]? = if k = a then none else m[a]? := by
  simp [Std.ExtTreeMap.getElem?_erase]

theorem mem_toList {k : Bytes} {v : T} : (k, v) ∈ m.toList ↔ m[k]? = some v :=
  Std.ExtTreeMap.mem_toList_iff_getElem?_eq_some

end StringMap

namespace Registry

variable (r : Registry)

/-- A server is known, with the names that its query brought, if any. -/
def on (senderIp ip : Bytes) (port : Int) (objects : Option (List Bytes)) : Registry where
  knownServers := r.knownServers.insert senderIp (ip, port)
  serverObjects :=
    match objects with
    | none => r.serverObjects
    | some objects => r.serverObjects.insert ip objects

/-- What is kept under the address of a sender is gone. -/
def off (senderIp : Bytes) : Registry where
  knownServers := r.knownServers.erase senderIp
  serverObjects := r.serverObjects.erase senderIp

variable (senderIp ip k : Bytes) (port : Int)

@[simp] theorem knownServers_on (objects : Option (List Bytes)) :
    (r.on senderIp ip port objects).knownServers[k]?
      = if senderIp = k then some (ip, port) else r.knownServers[k]? :=
  StringMap.getElem?_insert ..

@[simp] theorem serverObjects_on_none :
    (r.on senderIp ip port none).serverObjects = r.serverObjects := rfl

@[simp] theorem serverObjects_on_some (objects : List Bytes) :
    (r.on senderIp ip port (some objects)).serverObjects[k]?
      = if ip = k then some objects else r.serverObjects[k]? :=
  StringMap.getElem?_insert ..

@[simp] theorem knownServers_off :
    (r.off senderIp).knownServers[k]? = if senderIp = k then none else r.knownServers[k]? :=
  StringMap.getElem?_erase ..

@[simp] theorem serverObjects_off :
    (r.off senderIp).serverObjects[k]? = if senderIp = k then none else r.serverObjects[k]? :=
  StringMap.getElem?_erase ..

@[simp] theorem knownServers_empty : empty.knownServers[k]? = none := by
  simp [empty]

@[simp] theorem serverObjects_empty : empty.serverObjects[k]? = none := by
  simp [empty]

end Registry

/-! ## One datagram -/

section Message

variable {query : Query} {message senderIp ip : Bytes} {port : Int} {r : Registry}

/-- A datagram with an announcement has the mark of one. -/
theorem contains_of_announcedText {text : Bytes × Bytes}
    (h : announcedText message = some text) :
    contains (bytes "BEGIN/ON/SERVIDOR/") message = true := by
  cases hfind : find (bytes "BEGIN/ON/SERVIDOR/") message with
  | none => simp [announcedText, hfind] at h
  | some i => simp [contains, hfind]

theorem register_registry :
    (register query senderIp ip port r).2
      = r.on senderIp ip port ((query ip port).bind objectsOf) := by
  unfold register
  cases query ip port with
  | none => rfl
  | some answer =>
      cases hobjects : objectsOf answer with
      | none => simp [hobjects, Registry.on]
      | some objects => simp [hobjects, Registry.on]

/-- An announcement is registered. -/
theorem processProtocolMessage_announced (h : announced message = some (ip, port)) :
    processProtocolMessage query message senderIp r = register query senderIp ip port r := by
  obtain ⟨⟨ip', portText⟩, htext, hport⟩ := Option.bind_eq_some_iff.mp h
  have hmark := contains_of_announcedText htext
  obtain ⟨port', hstoi, hpair⟩ := Option.map_eq_some_iff.mp hport
  obtain ⟨rfl, rfl⟩ := Prod.mk.inj hpair
  simp [processProtocolMessage, hmark, htext, hstoi]

/-- A datagram that `processProtocolMessage` takes for an `OFF`. -/
def IsOff (message : Bytes) : Prop :=
  contains (bytes "BEGIN/ON/SERVIDOR/") message = false
    ∧ contains (bytes "BEGIN/OFF/SERVIDOR/") message = true

theorem processProtocolMessage_isOff (h : IsOff message) :
    processProtocolMessage query message senderIp r = (.returned, r.off senderIp) := by
  simp [processProtocolMessage, h.1, h.2, Registry.off]

/-- Anything else changes nothing. -/
theorem processProtocolMessage_other (h : announced message = none) (hoff : ¬ IsOff message) :
    (processProtocolMessage query message senderIp r).2 = r := by
  unfold processProtocolMessage
  split
  · cases htext : announcedText message with
    | none => rfl
    | some text =>
        have hstoi : stoi text.2 = none := by simpa [announced, htext] using h
        simp [hstoi]
  · rename_i hon
    rw [if_neg fun hmark => hoff ⟨by simpa using hon, hmark⟩]

/-- **What a datagram does to the registry.** -/
theorem processProtocolMessage_registry (query : Query) (message senderIp : Bytes)
    (r : Registry) :
    (processProtocolMessage query message senderIp r).2 = r
      ∨ (processProtocolMessage query message senderIp r).2 = r.off senderIp
      ∨ ∃ ip port, announced message = some (ip, port)
        ∧ (processProtocolMessage query message senderIp r).2
          = r.on senderIp ip port ((query ip port).bind objectsOf) := by
  cases hann : announced message with
  | some address =>
      obtain ⟨ip, port⟩ := address
      exact .inr (.inr ⟨ip, port, rfl,
        by rw [processProtocolMessage_announced hann, register_registry]⟩)
  | none =>
      by_cases hoff : IsOff message
      · exact .inr (.inl (by rw [processProtocolMessage_isOff hoff]))
      · exact .inl (processProtocolMessage_other hann hoff)

end Message

/-! ## Runs of datagrams -/

/-- The registry after a datagram that is handled on its own. -/
def handle (r : Registry) (d : Datagram) : Registry :=
  (processProtocolMessage d.query d.payload d.senderIp r).2

def handleAll (ds : List Datagram) : Registry :=
  ds.foldl handle .empty

theorem handleAll_snoc (ds : List Datagram) (d : Datagram) :
    handleAll (ds ++ [d]) = handle (handleAll ds) d := by
  rw [handleAll, List.foldl_append]
  rfl

@[simp] theorem handleAll_nil : handleAll [] = .empty := rfl

/-- The kept names are always those of some answer. -/
theorem objectsOf_handleAll (ds : List Datagram) {ip : Bytes} {objects : List Bytes}
    (h : (handleAll ds).serverObjects[ip]? = some objects) :
    ∃ answer, objectsOf answer = some objects := by
  induction ds using List.reverseRecOn with
  | nil => simp at h
  | append_singleton ds d ih =>
      rw [handleAll_snoc, handle] at h
      rcases processProtocolMessage_registry d.query d.payload d.senderIp (handleAll ds)
        with heq | heq | heq
      · rw [heq] at h
        exact ih h
      · rw [heq, Registry.serverObjects_off] at h
        split at h
        · cases h
        · exact ih h
      · -- the names under the announced ip are those of this answer
        obtain ⟨ip', port, _, heq⟩ := heq
        rw [heq] at h
        cases hquery : (d.query ip' port).bind objectsOf with
        | none =>
            rw [hquery, Registry.serverObjects_on_none] at h
            exact ih h
        | some objects' =>
            rw [hquery, Registry.serverObjects_on_some] at h
            split at h
            · obtain rfl := Option.some.inj h
              obtain ⟨answer, _, hanswer⟩ := Option.bind_eq_some_iff.mp hquery
              exact ⟨answer, hanswer⟩
            · exact ih h

/-! ## A datagram -/

/-- The announcement of a server at the address that every ASCII server
announces, with one drawing. -/
def announcedAt (senderIp port objectName : Bytes) : Datagram where
  payload := bytes "BEGIN/ON/SERVIDOR/172.16.0.2/" ++ port ++ bytes "/END"
  senderIp := senderIp
  query := fun _ _ => some (bytes "BEGIN/OK/" ++ objectName ++ bytes "\n/END")

end DistributedAscii.Server
