import DistributedAscii.Server.Registry

/-!
# Server — datagrams that end the discovery

The `try` of `udpDiscoveryHandler` stands around its loop, so an exception
of `processProtocolMessage` is the end of the discovery thread. There are
two: `std::stoi` on what stands where the port should be, and the query to
a server that does not answer, which comes when the server is half
registered.
-/

namespace DistributedAscii.Server

/-- The message that `recvfrom` hands on. -/
def Datagram.message (d : Datagram) : Bytes :=
  d.payload.take 256

/-- The announced server is known, with the names that it answered. -/
def RegisteredBy (d : Datagram) (r : Registry) : Prop :=
  ∃ ip port objects, announced d.message = some (ip, port)
    ∧ (d.query ip port).bind objectsOf = some objects
    ∧ r.knownServers[d.senderIp]? = some (ip, port)
    ∧ r.serverObjects[ip]? = some objects

/-- The loop goes on, and the server is registered completely or nothing
has changed. -/
def WellHandled (d : Datagram) (r : Registry) : Prop :=
  (receive d r).1 = .returned ∧ (RegisteredBy d (receive d r).2 ∨ (receive d r).2 = r)

/-- The port of an announcement is no number, or its server does not answer. -/
def Throws (d : Datagram) : Prop :=
  ∃ ip portText, announcedText d.message = some (ip, portText)
    ∧ ∀ port, stoi portText = some port → d.query ip port = none

/-- An announcement has a number for a port, its server answers, and the
answer has the mark of success unless there is nothing new in the
announcement; an `OFF` comes from a sender that nothing is kept for. -/
structure Harmless (d : Datagram) (r : Registry) : Prop where
  on : ∀ ip portText, announcedText d.message = some (ip, portText) →
    ∃ port answer, stoi portText = some port ∧ d.query ip port = some answer
      ∧ ((objectsOf answer).isSome ∨ r.knownServers[d.senderIp]? = some (ip, port))
  off : IsOff d.message →
    r.knownServers[d.senderIp]? = none ∧ r.serverObjects[d.senderIp]? = none

/-! ## What changes nothing -/

namespace Registry

variable {r : Registry} {senderIp ip : Bytes} {port : Int}

theorem ext_getElem? {r r' : Registry}
    (hknown : ∀ k : Bytes, r.knownServers[k]? = r'.knownServers[k]?)
    (hobjects : ∀ k : Bytes, r.serverObjects[k]? = r'.serverObjects[k]?) : r = r' := by
  cases r
  cases r'
  congr
  · exact Std.ExtTreeMap.ext_getElem? @hknown
  · exact Std.ExtTreeMap.ext_getElem? @hobjects

theorem on_none_eq_iff :
    r.on senderIp ip port none = r ↔ r.knownServers[senderIp]? = some (ip, port) := by
  constructor
  · intro h
    rw [← h, knownServers_on, if_pos rfl]
  · intro h
    apply ext_getElem?
    · intro k
      rw [knownServers_on]
      split
      · rename_i hk
        rw [← hk, h]
      · rfl
    · exact fun _ => rfl

theorem off_eq_iff :
    r.off senderIp = r
      ↔ r.knownServers[senderIp]? = none ∧ r.serverObjects[senderIp]? = none := by
  constructor
  · intro h
    constructor
    · rw [← h, knownServers_off, if_pos rfl]
    · rw [← h, serverObjects_off, if_pos rfl]
  · rintro ⟨hknown, hobjects⟩
    apply ext_getElem?
    · intro k
      rw [knownServers_off]
      split
      · rename_i hk
        rw [← hk, hknown]
      · rfl
    · intro k
      rw [serverObjects_off]
      split
      · rename_i hk
        rw [← hk, hobjects]
      · rfl

end Registry

/-! ## One datagram -/

section Receive

variable {d : Datagram} {r : Registry}

/-- Nothing is found in an empty message. -/
theorem receive_eq (d : Datagram) (r : Registry) :
    receive d r = processProtocolMessage d.query d.message d.senderIp r := by
  rw [receive, Datagram.message]
  split
  · rename_i h
    rw [h]
    rfl
  · rfl

theorem receive_announced {ip portText : Bytes} {port : Int}
    (htext : announcedText d.message = some (ip, portText)) (hport : stoi portText = some port) :
    receive d r = register d.query d.senderIp ip port r := by
  rw [receive_eq, processProtocolMessage_announced]
  simp [announced, htext, hport]

theorem receive_bad_port {ip portText : Bytes}
    (htext : announcedText d.message = some (ip, portText)) (hport : stoi portText = none) :
    receive d r = (.threw, r) := by
  simp [receive_eq, processProtocolMessage, contains_of_announcedText htext, htext, hport]

/-- A datagram without an announcement is an `OFF` or changes nothing, and
the loop goes on. -/
theorem receive_no_text (htext : announcedText d.message = none) :
    (IsOff d.message ∧ receive d r = (.returned, r.off d.senderIp))
      ∨ (¬ IsOff d.message ∧ receive d r = (.returned, r)) := by
  rw [receive_eq]
  by_cases hoff : IsOff d.message
  · exact .inl ⟨hoff, processProtocolMessage_isOff hoff⟩
  · right
    refine ⟨hoff, ?_⟩
    unfold processProtocolMessage
    split
    · simp [htext]
    · rename_i hon
      rw [if_neg fun hmark => hoff ⟨by simpa using hon, hmark⟩]

/-- An announcement is no `OFF`. -/
theorem not_isOff_of_text {ip portText : Bytes}
    (htext : announcedText d.message = some (ip, portText)) : ¬ IsOff d.message := by
  rintro ⟨hon, _⟩
  rw [contains_of_announcedText htext] at hon
  cases hon

theorem not_throws_of_no_text (htext : announcedText d.message = none) : ¬ Throws d := by
  rintro ⟨ip, portText, h, _⟩
  rw [htext] at h
  cases h

theorem not_throws_iff {ip portText : Bytes}
    (htext : announcedText d.message = some (ip, portText)) :
    ¬ Throws d ↔
      ∃ port answer, stoi portText = some port ∧ d.query ip port = some answer := by
  constructor
  · intro hno
    by_contra hall
    refine hno ⟨ip, portText, htext, fun port hport => ?_⟩
    cases hquery : d.query ip port with
    | none => rfl
    | some answer => exact absurd ⟨port, answer, hport, hquery⟩ hall
  · rintro ⟨port, answer, hport, hanswer⟩ ⟨ip', portText', h, hnone⟩
    obtain ⟨rfl, rfl⟩ := Prod.mk.inj (Option.some.inj (htext.symm.trans h))
    rw [hnone port hport] at hanswer
    cases hanswer

/-- **When the loop goes on**: `std::stoi` reads a port and the query is
answered, if there is an announcement. -/
theorem receive_returned_iff : (receive d r).1 = .returned ↔ ¬ Throws d := by
  cases htext : announcedText d.message with
  | none =>
      have hno := not_throws_of_no_text htext
      rcases receive_no_text (r := r) htext with ⟨_, heq⟩ | ⟨_, heq⟩
      · simp [heq, hno]
      · simp [heq, hno]
  | some text =>
      obtain ⟨ip, portText⟩ := text
      rw [not_throws_iff htext]
      cases hport : stoi portText with
      | none => simp [receive_bad_port htext hport]
      | some port =>
          rw [receive_announced htext hport, register]
          cases hquery : d.query ip port with
          | none => simp [hquery]
          | some answer => cases hobjects : objectsOf answer <;> simp [hquery, hobjects]

/-- An answered announcement is registered. -/
theorem registeredBy_receive {ip : Bytes} {port : Int} {objects : List Bytes}
    (hann : announced d.message = some (ip, port))
    (hobjects : (d.query ip port).bind objectsOf = some objects) :
    RegisteredBy d (receive d r).2 := by
  refine ⟨ip, port, objects, hann, hobjects, ?_, ?_⟩
  · rw [receive_eq, processProtocolMessage_announced hann, register_registry]
    simp
  · rw [receive_eq, processProtocolMessage_announced hann, register_registry, hobjects]
    simp

/-- An answered announcement is done completely or without effect, unless it
is half done: a new address for which the answer has no names. -/
theorem done_iff {ip portText answer : Bytes} {port : Int}
    (htext : announcedText d.message = some (ip, portText)) (hport : stoi portText = some port)
    (hanswer : d.query ip port = some answer) :
    RegisteredBy d (receive d r).2 ∨ (receive d r).2 = r ↔
      (objectsOf answer).isSome ∨ r.knownServers[d.senderIp]? = some (ip, port) := by
  have hann : announced d.message = some (ip, port) := by simp [announced, htext, hport]
  have hregistry : (receive d r).2 = r.on d.senderIp ip port (objectsOf answer) := by
    rw [receive_announced htext hport, register_registry, hanswer, Option.bind_some]
  cases hobjects : objectsOf answer with
  | some objects =>
      have hbrought : (d.query ip port).bind objectsOf = some objects := by
        simp [hanswer, hobjects]
      exact iff_of_true (.inl (registeredBy_receive hann hbrought)) (.inl rfl)
  | none =>
      have hnot : ¬ RegisteredBy d (receive d r).2 := by
        rintro ⟨ip', port', objects, h, hbrought, _⟩
        obtain ⟨rfl, rfl⟩ := Prod.mk.inj (Option.some.inj (hann.symm.trans h))
        simp [hanswer, hobjects] at hbrought
      rw [hregistry, hobjects] at hnot ⊢
      simp [hnot, Registry.on_none_eq_iff]

/-- **When a datagram is handled well.** -/
theorem wellHandled_iff_harmless : WellHandled d r ↔ Harmless d r := by
  rw [WellHandled, receive_returned_iff]
  cases htext : announcedText d.message with
  | none =>
      have hno := not_throws_of_no_text htext
      have hnot : ∀ r', ¬ RegisteredBy d r' := by
        rintro r' ⟨ip, port, objects, h, _⟩
        simp [announced, htext] at h
      have hon : ∀ ip portText, announcedText d.message = some (ip, portText) →
          ∃ port answer, stoi portText = some port ∧ d.query ip port = some answer
            ∧ ((objectsOf answer).isSome ∨ r.knownServers[d.senderIp]? = some (ip, port)) := by
        simp [htext]
      rcases receive_no_text (r := r) htext with ⟨hoff, heq⟩ | ⟨hoff, heq⟩
      · rw [heq]
        constructor
        · exact fun h => ⟨hon, fun _ => Registry.off_eq_iff.mp (h.2.resolve_left (hnot _))⟩
        · exact fun h => ⟨hno, .inr (Registry.off_eq_iff.mpr (h.off hoff))⟩
      · rw [heq]
        exact iff_of_true ⟨hno, .inr rfl⟩ ⟨hon, fun h => absurd h hoff⟩
  | some text =>
      obtain ⟨ip, portText⟩ := text
      rw [not_throws_iff htext]
      constructor
      · rintro ⟨⟨port, answer, hport, hanswer⟩, hdone⟩
        refine ⟨?_, fun h => absurd h (not_isOff_of_text htext)⟩
        intro ip' portText' h
        obtain ⟨rfl, rfl⟩ := Prod.mk.inj (Option.some.inj (htext.symm.trans h))
        exact ⟨port, answer, hport, hanswer, (done_iff htext hport hanswer).mp hdone⟩
      · intro h
        obtain ⟨port, answer, hport, hanswer, hok⟩ := h.on ip portText htext
        exact ⟨⟨port, answer, hport, hanswer⟩, (done_iff htext hport hanswer).mpr hok⟩

end Receive

/-! ## The loop -/

/-- The loop behind a first part. -/
theorem udpDiscoveryHandler_append (ds ds' : List Datagram) (r : Registry) :
    udpDiscoveryHandler (ds ++ ds') r =
      match udpDiscoveryHandler ds r with
      | (.returned, r') => udpDiscoveryHandler ds' r'
      | (.threw, r') => (.threw, r') := by
  induction ds generalizing r with
  | nil => rfl
  | cons d ds ih =>
      rw [List.cons_append, udpDiscoveryHandler, udpDiscoveryHandler]
      rcases hreceive : receive d r with ⟨exit, r'⟩
      cases exit with
      | returned => exact ih r'
      | threw => rfl

/-- **The loop goes on** exactly as long as no datagram throws. -/
theorem udpDiscoveryHandler_returned_iff (ds : List Datagram) (r : Registry) :
    (udpDiscoveryHandler ds r).1 = .returned ↔ ∀ d ∈ ds, ¬ Throws d := by
  induction ds generalizing r with
  | nil => simp [udpDiscoveryHandler]
  | cons d ds ih =>
      have hiff := receive_returned_iff (d := d) (r := r)
      rw [udpDiscoveryHandler, List.forall_mem_cons, ← hiff]
      rcases receive d r with ⟨exit, r'⟩
      cases exit with
      | returned => simp [ih]
      | threw => simp

/-- **When discovery is safe**: a datagram is handled well exactly if it is
harmless; the loop goes on exactly as long as no datagram throws, and then
an announcement of a server that answers is registered. -/
theorem discovery_iff (ds : List Datagram) (d : Datagram) (r : Registry) :
    (WellHandled d r ↔ Harmless d r)
    ∧ ((udpDiscoveryHandler ds r).1 = .returned ↔ ∀ d' ∈ ds, ¬ Throws d')
    ∧ ((∀ d' ∈ ds, ¬ Throws d') → ∀ ip port objects, announced d.message = some (ip, port) →
      (d.query ip port).bind objectsOf = some objects →
      RegisteredBy d (udpDiscoveryHandler (ds ++ [d]) r).2) := by
  refine ⟨wellHandled_iff_harmless, udpDiscoveryHandler_returned_iff ds r, ?_⟩
  intro hno ip port objects hann hobjects
  have hreturned := (udpDiscoveryHandler_returned_iff ds r).mpr hno
  rw [udpDiscoveryHandler_append]
  rcases hloop : udpDiscoveryHandler ds r with ⟨exit, r'⟩
  rw [hloop] at hreturned
  cases exit with
  | threw => cases hreturned
  | returned =>
      have hregistered := registeredBy_receive (r := r') hann hobjects
      dsimp only [udpDiscoveryHandler]
      rcases hreceive : receive d r' with ⟨exit', r''⟩
      rw [hreceive] at hregistered
      cases exit' with
      | returned => exact hregistered
      | threw => exact hregistered

/-- One datagram with letters for a port ends the discovery. -/
theorem discovery_ends : ¬ ∀ d r, WellHandled d r := by
  intro h
  have hreturned := (h ⟨bytes "BEGIN/ON/SERVIDOR/1.2.3.4/abc/END", bytes "1.2.3.4",
    fun _ _ => none⟩ .empty).1
  rw [receive_eq] at hreturned
  revert hreturned
  decide

end DistributedAscii.Server
