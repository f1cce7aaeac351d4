import DistributedAscii.Server.HttpRequests
import DistributedAscii.Server.Routing

/-!
# Server — the fork and the servers it depends on

`requestFromServer` turns every failure into an exception, and `init` has no
handler around it: the one turn of the accept loop that meets a dead server
is the last one. No other call on the way to an answer throws, since every
`substr` begins within its string.

A connection is the sequence of what its reads return, which need not end.
-/

namespace DistributedAscii.Server

open Lib.Search

/-! ## Connections -/

/-- What the reads on a connection return, one after the other. -/
abbrev Connection := Nat → ReadResult

/-- What the servers do with a request to an ip and a port; `none` is a
connection that is refused or breaks before the request is sent. -/
abbrev Connections := Bytes → Int → Bytes → Option Connection

def firstReads (reads : Connection) (n : Nat) : List ReadResult :=
  (List.range n).map reads

/-- The first reads of every connection. -/
def Connections.upTo (connections : Connections) (n : Nat) : Sessions :=
  fun ip port request => (connections ip port request).map fun reads => firstReads reads n

/-- The read loop is left within these reads. -/
def stops : List ReadResult → Bytes → Bool
  | [], _ => false
  | .failed :: _, _ => true
  | .data buffer :: rest, response =>
      if buffer = [] then true
      else if contains (bytes "/END") (response ++ buffer) then true
      else stops rest (response ++ buffer)

/-- `n` reads are enough for the request that is forwarded. -/
def Over (connections : Connections) (r : Registry) (httpRequest : Bytes) (n : Nat) : Prop :=
  ∀ name server reads, askedName httpRequest = some name → routeGet r name = some server →
    connections server.1 server.2 (getMessage name) = some reads → stops (firstReads reads n) []

/-! ## Where `substr` is called -/

/-- The strings and positions of the calls in `translateHttpToAscii`. -/
def httpToAsciiCuts (request : Bytes) : List (Bytes × Option Nat) :=
  if contains (bytes "GET /objects") request then []
  else
    match find (bytes "GET /get/") request, find (bytes " HTTP/") request with
    | some i, some _ => [(request, some (i + 9))]
    | _, _ => []

/-- Those in `init` itself. -/
def dispatchCuts (asciiRequest : Bytes) : List (Bytes × Option Nat) :=
  if contains (bytes "BEGIN/OBJECTS/END") asciiRequest then []
  else
    match find (bytes "BEGIN/GET/") asciiRequest, find (bytes "/END") asciiRequest with
    | some i, some _ => [(asciiRequest, some (i + 10))]
    | _, _ => []

/-- Those in `translateAsciiToHttp`. -/
def asciiToHttpCuts (response : Bytes) : List (Bytes × Option Nat) :=
  match find (bytes "BEGIN/ERROR/") response with
  | some i =>
      let codeEnd := findFrom (bytes "/") response (i + 12)
      [(response, some (i + 12)), (response, some ((codeEnd.map (· + 1)).getD 0))]
  | none => if contains (bytes "BEGIN/OK/") response then [(response, some 9)] else []

/-- A mark ends within the string it is found in. -/
theorem inRange_mark {mark s : Bytes} {i : Nat} (h : find mark s = some i) :
    InRange [(s, some (i + mark.length))] :=
  inRange_cons_iff.mpr ⟨find_le h, inRange_nil⟩

theorem inRange_httpToAscii (request : Bytes) : InRange (httpToAsciiCuts request) := by
  rw [httpToAsciiCuts]
  split
  · exact inRange_nil
  · split
    · rename_i i _ hget _
      exact inRange_mark hget
    · exact inRange_nil

theorem inRange_dispatch (asciiRequest : Bytes) : InRange (dispatchCuts asciiRequest) := by
  rw [dispatchCuts]
  split
  · exact inRange_nil
  · split
    · rename_i i _ hget _
      exact inRange_mark hget
    · exact inRange_nil

theorem inRange_asciiToHttp (response : Bytes) : InRange (asciiToHttpCuts response) := by
  rw [asciiToHttpCuts]
  split
  · rename_i i hfind
    refine inRange_cons_iff.mpr ⟨find_le hfind, inRange_cons_iff.mpr ⟨?_, inRange_nil⟩⟩
    -- the first slash behind the code, or 0
    cases hslash : findFrom (bytes "/") response (i + 12) with
    | none => exact Nat.zero_le _
    | some e => exact findFrom_le hslash
  · split
    · rename_i hok
      rw [contains] at hok
      obtain ⟨i, hi⟩ := Option.isSome_iff_exists.mp hok
      have hle := find_le hi
      rw [length_okMark] at hle
      exact inRange_cons_iff.mpr ⟨le_trans (Nat.le_add_left 9 i) hle, inRange_nil⟩
    · exact inRange_nil

/-! ## Reading to the end -/

/-- A server that delivers: some bytes, in parts, and then the mark of the
end or the end of the stream. -/
inductive Delivers : Option Connection → Prop where
  | mark {reads : Connection} {pieces : List Bytes} (hne : pieces ≠ [])
      (hparts : ∀ p ∈ pieces, p ≠ []) (hreads : firstReads reads pieces.length = pieces.map .data)
      (hend : bytes "/END" <:+: pieces.flatten) : Delivers (some reads)
  | closed {reads : Connection} {pieces : List Bytes} (hne : pieces ≠ [])
      (hparts : ∀ p ∈ pieces, p ≠ [])
      (hreads : firstReads reads (pieces.length + 1) = pieces.map .data ++ [.data []]) :
      Delivers (some reads)

theorem length_firstReads (reads : Connection) (n : Nat) : (firstReads reads n).length = n := by
  rw [firstReads, List.length_map, List.length_range]

/-- The reads of a prefix are first reads. -/
theorem firstReads_of_prefix {reads : Connection} {n : Nat} {l : List ReadResult}
    (h : l <+: firstReads reads n) : firstReads reads l.length = l := by
  have hle := h.length_le
  rw [length_firstReads] at hle
  have htake := List.prefix_iff_eq_take.mp h
  rw [firstReads, ← List.map_take, List.take_range, Nat.min_eq_left hle] at htake
  exact htake.symm

/-- **What a loop that was left without an exception has read**: parts, and
then the mark or the end of the stream. -/
theorem pieces_of_stops {l : List ReadResult} {response answer : Bytes}
    (hstops : stops l response) (hread : readLoop l response = some answer) :
    ∃ pieces : List Bytes, answer = response ++ pieces.flatten ∧ (∀ p ∈ pieces, p ≠ [])
      ∧ ((pieces ≠ [] ∧ pieces.map .data <+: l ∧ bytes "/END" <:+: answer)
        ∨ pieces.map .data ++ [.data []] <+: l) := by
  induction l generalizing response with
  | nil => cases hstops
  | cons read rest ih =>
      cases read with
      | failed => cases hread
      | data buffer =>
          rw [stops] at hstops
          rw [readLoop] at hread
          by_cases hbuffer : buffer = []
          · -- the end of the stream
            subst hbuffer
            rw [if_pos rfl] at hread
            refine ⟨[], ?_, by simp, .inr ?_⟩
            · rw [List.flatten_nil, List.append_nil]
              exact (Option.some.inj hread).symm
            · exact List.prefix_append [.data []] rest
          · rw [if_neg hbuffer] at hstops hread
            by_cases hmark : contains (bytes "/END") (response ++ buffer)
            · -- the mark of the end
              rw [if_pos hmark] at hread
              obtain rfl := Option.some.inj hread
              refine ⟨[buffer], by simp, by simpa using hbuffer, .inl ⟨by simp, ?_, ?_⟩⟩
              · exact List.prefix_append [.data buffer] rest
              · exact contains_iff.mp hmark
            · rw [if_neg hmark] at hstops hread
              obtain ⟨pieces, rfl, hparts, hend⟩ := ih hstops hread
              refine ⟨buffer :: pieces, by simp, ?_, ?_⟩
              · exact List.forall_mem_cons.mpr ⟨hbuffer, hparts⟩
              · rw [List.map_cons]
                rcases hend with ⟨-, hpre, hin⟩ | hpre
                · exact .inl ⟨by simp, (List.cons_prefix_cons).mpr ⟨rfl, hpre⟩, hin⟩
                · exact .inr ((List.cons_prefix_cons).mpr ⟨rfl, hpre⟩)

/-- Parts and then an end: the loop is left, with all it needs. -/
theorem stops_of_pieces {pieces : List Bytes} (rest : List ReadResult) (response : Bytes)
    (hparts : ∀ p ∈ pieces, p ≠ [])
    (hend : rest = [.data []] ∨ (pieces ≠ [] ∧ bytes "/END" <:+: response ++ pieces.flatten)) :
    stops (pieces.map .data ++ rest) response
      ∧ ∃ answer, readLoop (pieces.map .data ++ rest) response = some answer
        ∧ (response ++ pieces.flatten ≠ [] → answer ≠ []) := by
  induction pieces generalizing response with
  | nil =>
      obtain rfl := hend.resolve_right fun h => h.1 rfl
      refine ⟨rfl, response, rfl, ?_⟩
      rw [List.flatten_nil, List.append_nil]
      exact id
  | cons p pieces ih =>
      have hp : p ≠ [] := hparts p List.mem_cons_self
      rw [List.map_cons, List.cons_append, stops, readLoop, if_neg hp, if_neg hp]
      by_cases hmark : contains (bytes "/END") (response ++ p)
      · rw [if_pos hmark, if_pos hmark]
        exact ⟨rfl, response ++ p, rfl, fun _ => by simp [hp]⟩
      · rw [if_neg hmark, if_neg hmark]
        rw [List.flatten_cons, ← List.append_assoc] at hend ⊢
        refine ih _ (fun q hq => hparts q (List.mem_cons_of_mem _ hq)) ?_
        rcases hend with hend | ⟨-, hin⟩
        · exact .inl hend
        · refine .inr ⟨?_, hin⟩
          rintro rfl
          rw [List.flatten_nil, List.append_nil] at hin
          exact hmark (contains_iff.mpr hin)

/-- **When a request to a server returns**: after enough reads, and with an
answer, exactly if the server delivers. -/
theorem requestFromServer_returns_iff {connection : Option Connection} :
    (∃ n answer, (∀ reads, connection = some reads → stops (firstReads reads n) [])
        ∧ requestFromServer (connection.map fun reads => firstReads reads n) = some answer)
      ↔ Delivers connection := by
  constructor
  · rintro ⟨n, answer, hstops, hanswer⟩
    cases connection with
    | none => cases hanswer
    | some reads =>
        rw [Option.map_some, requestFromServer] at hanswer
        cases hread : readLoop (firstReads reads n) [] with
        | none => simp [hread] at hanswer
        | some response =>
            have hne : response ≠ [] := by
              rintro rfl
              simp [hread] at hanswer
            obtain ⟨pieces, rfl, hparts, hend⟩ := pieces_of_stops (hstops reads rfl) hread
            rw [List.nil_append] at hne hend
            have hpieces : pieces ≠ [] := by
              rintro rfl
              exact hne rfl
            rcases hend with ⟨-, hpre, hin⟩ | hpre
            · have hreads := firstReads_of_prefix hpre
              rw [List.length_map] at hreads
              exact .mark hpieces hparts hreads hin
            · have hreads := firstReads_of_prefix hpre
              rw [List.length_append, List.length_map, List.length_singleton] at hreads
              exact .closed hpieces hparts hreads
  · intro h
    have hflatten : ∀ pieces : List Bytes, pieces ≠ [] → (∀ p ∈ pieces, p ≠ []) →
        [] ++ pieces.flatten ≠ [] := by
      intro pieces hne hparts hnil
      rw [List.nil_append, List.flatten_eq_nil_iff] at hnil
      obtain ⟨p, hp⟩ := List.exists_mem_of_ne_nil pieces hne
      exact hparts p hp (hnil p hp)
    -- enough reads are those up to the mark, or one more for the close
    cases h with
    | @mark reads pieces hne hparts hreads hend =>
        obtain ⟨hstops, answer, hread, hanswer⟩ :=
          stops_of_pieces [] [] hparts (.inr ⟨hne, hend⟩)
        rw [List.append_nil, ← hreads] at hstops hread
        refine ⟨pieces.length, answer, fun _ h => Option.some.inj h ▸ hstops, ?_⟩
        simp [requestFromServer, hread, hanswer (hflatten pieces hne hparts)]
    | @closed reads pieces hne hparts hreads =>
        obtain ⟨hstops, answer, hread, hanswer⟩ :=
          stops_of_pieces _ [] hparts (.inl rfl)
        rw [← hreads] at hstops hread
        refine ⟨pieces.length + 1, answer, fun _ h => Option.some.inj h ▸ hstops, ?_⟩
        simp [requestFromServer, hread, hanswer (hflatten pieces hne hparts)]

/-! ## One turn of the accept loop -/

/-- One turn is survived: the client is answered with a response, and no
call of `substr` on the way throws. -/
structure Survives (connections : Connections) (r : Registry) (httpRequest : Bytes) : Prop where
  answered : ∃ n answer, Over connections r httpRequest n
    ∧ serveClient (connections.upTo n) r httpRequest = some answer
    ∧ bytes "HTTP/1.1 " <+: answer
  inRange : asksForIndex httpRequest = false →
    InRange (httpToAsciiCuts (CString.ofBytes httpRequest).bytes)
      ∧ InRange (dispatchCuts (translateHttpToAscii (.ofBytes httpRequest)))
      ∧ ∀ n response,
        asciiResponse (connections.upTo n) r (translateHttpToAscii (.ofBytes httpRequest))
            = some response →
          InRange (asciiToHttpCuts (CString.ofBytes response).bytes)

theorem version_prefix {rest : Bytes} : bytes "HTTP/1.1 " <+: bytes "HTTP/1.1 " ++ rest :=
  List.prefix_append _ _

/-- Whatever a server sent, the client gets a response. -/
theorem translateAsciiToHttp_version (response : CString) :
    bytes "HTTP/1.1 " <+: translateAsciiToHttp response := by
  rw [translateAsciiToHttp]
  split
  · simp only [List.append_assoc]
    exact version_prefix
  · split
    · rw [show bytes "HTTP/1.1 200 OK\r\nContent-Type: text/plain; charset=utf-8\r\n\r\n"
        = bytes "HTTP/1.1 " ++ bytes "200 OK\r\nContent-Type: text/plain; charset=utf-8\r\n\r\n"
        by decide, List.append_assoc]
      exact version_prefix
    · decide

section Turn

variable {r : Registry} {httpRequest : Bytes}

/-- A request that is forwarded is answered with what becomes of the answer. -/
theorem serveClient_routed (servers : Sessions) {name : Bytes} {server : Bytes × Int}
    (hname : askedName httpRequest = some name) (hserver : routeGet r name = some server) :
    serveClient servers r httpRequest
      = (requestFromServer (servers server.1 server.2 (getMessage name))).map
          fun response => translateAsciiToHttp (.ofBytes response) := by
  rw [askedName] at hname
  cases hindex : asksForIndex httpRequest with
  | true => simp [hindex] at hname
  | false =>
      rw [hindex, if_neg Bool.false_ne_true] at hname
      rw [serveClient, hindex, if_neg Bool.false_ne_true, asciiResponse]
      cases hdispatch : dispatch (translateHttpToAscii (.ofBytes httpRequest)) with
      | get objectName =>
          rw [hdispatch] at hname
          obtain rfl := Option.some.inj hname
          simp only [hserver]
          rfl
      | objects => simp [hdispatch] at hname
      | nothing => simp [hdispatch] at hname

/-- Any other request is answered without a server. -/
theorem serveClient_alone (h : ∀ name, askedName httpRequest = some name → routeGet r name = none)
    (servers : Sessions) :
    ∃ answer, serveClient servers r httpRequest = some answer ∧ bytes "HTTP/1.1 " <+: answer := by
  rw [serveClient]
  cases hindex : asksForIndex httpRequest with
  | true =>
      refine ⟨_, if_pos rfl, ?_⟩
      rw [show bytes "HTTP/1.1 200 OK\r\nContent-Type: text/html; charset=utf-8\r\n\r\n"
        = bytes "HTTP/1.1 " ++ bytes "200 OK\r\nContent-Type: text/html; charset=utf-8\r\n\r\n"
        by decide, List.append_assoc]
      exact version_prefix
  | false =>
      rw [if_neg Bool.false_ne_true, asciiResponse]
      cases hdispatch : dispatch (translateHttpToAscii (.ofBytes httpRequest)) with
      | get objectName =>
          have hname : askedName httpRequest = some objectName := by
            rw [askedName, hindex, if_neg Bool.false_ne_true, hdispatch]
          simp only [h objectName hname]
          exact ⟨_, rfl, translateAsciiToHttp_version _⟩
      | objects => exact ⟨_, rfl, translateAsciiToHttp_version _⟩
      | nothing => exact ⟨_, rfl, translateAsciiToHttp_version _⟩

/-- **When the fork survives a request**: unless it is forwarded to a server
that does not deliver. -/
theorem turn_survives_iff {connections : Connections} :
    Survives connections r httpRequest
      ↔ ∀ name server, askedName httpRequest = some name → routeGet r name = some server →
          Delivers (connections server.1 server.2 (getMessage name)) := by
  constructor
  · rintro ⟨⟨n, answer, hover, hanswer, -⟩, -⟩ name server hname hserver
    rw [serveClient_routed _ hname hserver] at hanswer
    obtain ⟨response, hresponse, -⟩ := Option.map_eq_some_iff.mp hanswer
    exact requestFromServer_returns_iff.mp
      ⟨n, response, fun reads => hover name server reads hname hserver, hresponse⟩
  · intro h
    refine ⟨?_, fun _ => ⟨inRange_httpToAscii _, inRange_dispatch _,
      fun _ _ _ => inRange_asciiToHttp _⟩⟩
    by_cases hrouted : ∃ name server, askedName httpRequest = some name
        ∧ routeGet r name = some server
    · obtain ⟨name, server, hname, hserver⟩ := hrouted
      obtain ⟨n, response, hstops, hresponse⟩ :=
        requestFromServer_returns_iff.mpr (h name server hname hserver)
      refine ⟨n, translateAsciiToHttp (.ofBytes response), ?_, ?_,
        translateAsciiToHttp_version _⟩
      · intro name' server' reads hname' hserver' hreads
        obtain rfl := Option.some.inj (hname.symm.trans hname')
        obtain rfl := Option.some.inj (hserver.symm.trans hserver')
        exact hstops reads hreads
      · rw [serveClient_routed _ hname hserver, Connections.upTo, hresponse, Option.map_some]
    · have halone : ∀ name, askedName httpRequest = some name → routeGet r name = none := by
        intro name hname
        rw [Option.eq_none_iff_forall_not_mem]
        exact fun server hserver => hrouted ⟨name, server, hname, hserver⟩
      obtain ⟨answer, hanswer, hversion⟩ := serveClient_alone halone (connections.upTo 0)
      refine ⟨0, answer, ?_, hanswer, hversion⟩
      intro name server reads hname hserver
      exact absurd ⟨name, server, hname, hserver⟩ hrouted

end Turn

/-- The server of the cat is gone, and the registry still has it. -/
theorem not_survives :
    ¬ ∀ (connections : Connections) (r : Registry) (httpRequest : Bytes),
      Survives connections r httpRequest := by
  intro h
  obtain ⟨⟨n, answer, -, hanswer, -⟩, -⟩ := h (fun _ _ _ => none)
    (handleAll [announcedAt (bytes "10.0.0.1") (bytes "80") (bytes "gato")])
    (bytes "GET /get/gato HTTP/1.1\r\n\r\n")
  have hname : askedName (bytes "GET /get/gato HTTP/1.1\r\n\r\n") = some (bytes "gato") := by
    decide
  have hserver : routeGet
      (handleAll [announcedAt (bytes "10.0.0.1") (bytes "80") (bytes "gato")]) (bytes "gato")
        = some (bytes "172.16.0.2", 80) := by
    decide
  rw [serveClient_routed _ hname hserver] at hanswer
  cases hanswer

end DistributedAscii.Server
