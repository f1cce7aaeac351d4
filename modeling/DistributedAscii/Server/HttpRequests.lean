import DistributedAscii.Server.Answers

/-!
# Server — the requests of clients

The accept loop of `forkServer::init`: a request is read up to the end of
its head, a request for the page is answered at once, any other one is
turned into an ASCII message, and what `init` does follows from searching
that message. `asciiResponse` and `serveClient` are `none` where an
exception leaves `init`.

The name that a client asks for is put between two marks and cut out again
at the first `/END`. The slash of the mark in front of it and a name that
begins with `END` make one too early.
-/

namespace DistributedAscii.Server

open Lib.Search

/-! ## The code -/

/-- The loop that reads a request; `none` is the exception of a failed
`read`. -/
def readRequest : List ReadResult → Bytes → Option Bytes
  | [], httpRequest => some httpRequest
  | .failed :: _, _ => none
  | .data buffer :: rest, httpRequest =>
      if buffer = [] then some httpRequest
      else if contains (bytes "\r\n\r\n") (httpRequest ++ buffer) then
        some (httpRequest ++ buffer)
      else readRequest rest (httpRequest ++ buffer)

/-- The message of `translateHttpToAscii` for what it does not know. -/
def invalidRequest : Bytes :=
  bytes "BEGIN/ERROR/400/Invalid HTTP request/END"

/-- `translateHttpToAscii`. -/
def translateHttpToAscii (httpRequest : CString) : Bytes :=
  let request := httpRequest.bytes
  if contains (bytes "GET /objects") request then bytes "BEGIN/OBJECTS/END"
  else
    match find (bytes "GET /get/") request with
    | some i =>
        match find (bytes " HTTP/") request with
        | some e =>
            bytes "BEGIN/GET/" ++ substr request (i + 9) (sizeDiff (some e) (i + 9))
              ++ bytes "/END"
        | none => invalidRequest
    | none =>
        if contains (bytes "POST /on/server") request then
          bytes "BEGIN/ON/SERVIDOR/param1/param2/END"
        else if contains (bytes "POST /on/fork") request then bytes "BEGIN/ON/TENEDOR/END"
        else if contains (bytes "POST /off/server") request then
          bytes "BEGIN/OFF/SERVIDOR/param1/param2/END"
        else invalidRequest

/-- The test of `init` for a request for the page. -/
def asksForIndex (httpRequest : Bytes) : Bool :=
  contains (bytes "GET / ") httpRequest || contains (bytes "GET /HTTP") httpRequest

/-- `std::to_string` of an `int`. -/
def signedDecimal (n : Int) : Bytes :=
  (if n < 0 then bytes "-" else []) ++ decimal n.natAbs

/-- The port of the first known server with this announced ip. -/
def portOf (r : Registry) (ip : Bytes) : Bytes :=
  match r.knownServers.toList.find? fun kv => kv.2.1 = ip with
  | some kv => signedDecimal kv.2.2
  | none => bytes "???"

/-- `generateHTMLIndex`. -/
def generateHTMLIndex (r : Registry) : Bytes :=
  bytes "<html><head><title>Servidores de Figuras</title></head><body>"
    ++ bytes "<h1>Servidores Registrados</h1>"
    ++ bytes ("<table border='1'><tr><th>Servidor " ++
      "(IP:Puerto)</th><th>Figuras</th></tr>")
    ++ (r.serverObjects.toList.flatMap fun entry =>
      bytes "<tr><td>" ++ entry.1 ++ bytes ":" ++ portOf r entry.1 ++ bytes "</td><td><ul>"
        ++ (entry.2.flatMap fun fig => bytes "<li>" ++ fig ++ bytes "</li>")
        ++ bytes "</ul></td></tr>")
    ++ bytes "</table></body></html>"

/-- What `init` makes of a message: a list of the objects, a `GET` for the
name it cuts out, or nothing, which leaves the answer empty. -/
inductive Dispatch where
  | objects
  | get (objectName : Bytes)
  | nothing
deriving DecidableEq

def dispatch (asciiRequest : Bytes) : Dispatch :=
  if contains (bytes "BEGIN/OBJECTS/END") asciiRequest then .objects
  else
    match find (bytes "BEGIN/GET/") asciiRequest, find (bytes "/END") asciiRequest with
    | some i, some e => .get (substr asciiRequest (i + 10) (sizeDiff (some e) (i + 10)))
    | _, _ => .nothing

/-- `objectList`: the names with line breaks in between. -/
def joinNames (names : List Bytes) : Bytes :=
  names.foldl (fun list obj => (if list = [] then list else list ++ bytes "\n") ++ obj) []

/-- What the servers do with a request to an ip and a port: the reads of the
connection, `none` if there is none. -/
abbrev Sessions := Bytes → Int → Bytes → Option (List ReadResult)

/-- `asciiResponse`. -/
def asciiResponse (servers : Sessions) (r : Registry) (asciiRequest : Bytes) : Option Bytes :=
  match dispatch asciiRequest with
  | .objects => some (bytes "BEGIN/OK/" ++ joinNames (listObjects r) ++ bytes "/END")
  | .get objectName =>
      match routeGet r objectName with
      | some server =>
          requestFromServer
            (servers server.1 server.2 (bytes "BEGIN/GET/" ++ objectName ++ bytes "/END"))
      | none => some (bytes "BEGIN/ERROR/201/El dibujo solicitado no fue encontrado/END")
  | .nothing => some []

/-- What the client of a request is sent. -/
def serveClient (servers : Sessions) (r : Registry) (httpRequest : Bytes) : Option Bytes :=
  if asksForIndex httpRequest then
    some (bytes "HTTP/1.1 200 OK\r\nContent-Type: text/html; charset=utf-8\r\n\r\n"
      ++ generateHTMLIndex r)
  else
    (asciiResponse servers r (translateHttpToAscii (.ofBytes httpRequest))).map fun response =>
      translateAsciiToHttp (.ofBytes response)

/-- The name of which `init` asks the servers. -/
def askedName (httpRequest : Bytes) : Option Bytes :=
  if asksForIndex httpRequest then none
  else
    match dispatch (translateHttpToAscii (.ofBytes httpRequest)) with
    | .get objectName => some objectName
    | _ => none

/-! ## Reading a request -/

theorem bytes_headEnd : bytes "\r\n\r\n" = [13, 10, 13, 10] := by decide

theorem readRequest_eq (reads : List ReadResult) (httpRequest : Bytes) :
    readRequest reads httpRequest = readUntil (bytes "\r\n\r\n") reads httpRequest := by
  induction reads generalizing httpRequest with
  | nil => rfl
  | cons read rest ih =>
      cases read with
      | failed => rfl
      | data buffer => rw [readRequest, readUntil, ih]

/-- A head without line breaks is read to its end: a part of it that has
both line breaks is the whole. -/
theorem readRequest_whole {head : Bytes} (hhead : 10 ∉ head) {pieces : List Bytes}
    (hne : ∀ p ∈ pieces, p ≠ []) {httpRequest : Bytes}
    (hflatten : httpRequest ++ pieces.flatten = head ++ bytes "\r\n\r\n") :
    readRequest (pieces.map .data) httpRequest = some (head ++ bytes "\r\n\r\n") := by
  rw [readRequest_eq]
  refine readUntil_whole ?_ hne hflatten
  intro front hfront hmark
  rw [bytes_headEnd] at hfront hmark ⊢
  by_contra hshort
  have hpart : front <+: head ++ [13, 10, 13] := by
    have hpre : front <+: (head ++ [13, 10, 13]) ++ [10] := by
      rw [List.append_assoc]
      exact hfront
    rcases List.prefix_concat_iff.mp hpre with heq | hpre
    · exact absurd (heq.trans (List.append_assoc _ _ _)) hshort
    · exact hpre
  have hcount := (hmark.sublist.trans hpart.sublist).count_le 10
  rw [List.count_append, List.count_eq_zero.mpr hhead] at hcount
  exact absurd hcount (by decide)

/-! ## The name that was asked for -/

/-- The head of a request for a name. -/
def getHead (name : Bytes) : Bytes :=
  bytes "GET /get/" ++ name ++ bytes " HTTP/1.1"

def getRequest (name : Bytes) : Bytes :=
  getHead name ++ bytes "\r\n\r\n"

/-- The message for a name. -/
def getMessage (name : Bytes) : Bytes :=
  bytes "BEGIN/GET/" ++ name ++ bytes "/END"

theorem getRequest_eq (name : Bytes) :
    getRequest name = bytes "GET" ++ 32 :: (bytes "/get/" ++ name
      ++ 32 :: bytes "HTTP/1.1\r\n\r\n") := by
  simp only [getRequest, getHead, show bytes "GET /get/" = bytes "GET" ++ 32 :: bytes "/get/"
    by decide, show bytes " HTTP/1.1" ++ bytes "\r\n\r\n" = 32 :: bytes "HTTP/1.1\r\n\r\n"
    by decide, List.append_assoc, List.cons_append]

theorem getMessage_eq (name : Bytes) :
    getMessage name = bytes "BEGIN" ++ 47 :: (bytes "GET" ++ 47 :: (name
      ++ 47 :: bytes "END")) := by
  simp only [getMessage, show bytes "BEGIN/GET/" = bytes "BEGIN" ++ 47 :: (bytes "GET" ++ [47])
    by decide, bytes_end, bytes_end_word, List.append_assoc, List.cons_append, List.nil_append]

section Name

variable {name : Bytes}

/-- Of the marks that begin with `GET /` only the one of `/get/` is in the
request. -/
theorem mark_not_infix (hname : 32 ∉ name) {c : UInt8} (hc : c ≠ 103) (rest : Bytes) :
    ¬ bytes "GET" ++ 32 :: 47 :: c :: rest <:+: getRequest name := by
  have hslash : bytes "/get/" = 47 :: 103 :: bytes "et/" := by decide
  have hhttp : bytes "HTTP/1.1\r\n\r\n" = 72 :: bytes "TTP/1.1\r\n\r\n" := by decide
  have hspace : 32 ∉ bytes "/get/" ++ name := by
    rw [List.mem_append]
    exact fun h => h.elim (by decide) hname
  have hlast : ¬ bytes "GET" ++ 32 :: 47 :: c :: rest <:+: bytes "HTTP/1.1\r\n\r\n" := by
    intro h
    exact absurd (h.subset (List.mem_append_right _ List.mem_cons_self)) (by decide)
  rw [getRequest_eq, sep_infix_iff (by decide) (by decide), sep_infix_iff (by decide) hspace]
  rintro (⟨-, hpre⟩ | ⟨-, hpre⟩ | h)
  · rw [hslash] at hpre
    simp only [List.cons_append, List.cons_prefix_cons, true_and] at hpre
    exact hc hpre.1
  · rw [hhttp, List.cons_prefix_cons] at hpre
    exact absurd hpre.1 (by decide)
  · exact hlast h

theorem find_version (hname : 32 ∉ name) :
    find (bytes " HTTP/") (getRequest name) = some (9 + name.length) := by
  have hmark : bytes " HTTP/" = 32 :: bytes "HTTP/" := by decide
  have hslash : bytes "/get/" = 47 :: bytes "get/" := by decide
  have hfront : ¬ 32 :: bytes "HTTP/" <:+: bytes "GET" ++ 32 :: (bytes "/get/" ++ name) := by
    rw [← List.nil_append (32 :: bytes "HTTP/"), sep_infix_iff (by simp) (by decide)]
    rintro (⟨-, hpre⟩ | h)
    · rw [hslash, show bytes "HTTP/" = 72 :: bytes "TTP/" by decide, List.cons_append,
        List.cons_prefix_cons] at hpre
      exact absurd hpre.1 (by decide)
    · have hmem := h.subset (List.mem_append_right _ List.mem_cons_self)
      rw [List.mem_append] at hmem
      exact hmem.elim (by decide) hname
  have hsplit : getRequest name = (bytes "GET" ++ 32 :: (bytes "/get/" ++ name))
      ++ ((32 :: bytes "HTTP/") ++ bytes "1.1\r\n\r\n") := by
    rw [getRequest_eq, show bytes "HTTP/1.1\r\n\r\n" = bytes "HTTP/" ++ bytes "1.1\r\n\r\n"
      by decide]
    simp
  have hlen : (bytes "GET" ++ 32 :: (bytes "/get/" ++ name)).length = 9 + name.length := by
    rw [List.length_append, List.length_cons, List.length_append,
      show (bytes "GET").length = 3 by decide, show (bytes "/get/").length = 5 by decide]
    omega
  rw [hmark, hsplit, find_append_self (by decide) hfront, hlen]

/-- **The message names what the request names.** -/
theorem translate_getRequest {request : CString} (hrequest : request.bytes = getRequest name)
    (hname : 32 ∉ name) : translateHttpToAscii request = getMessage name := by
  have hobjects : contains (bytes "GET /objects") (getRequest name) = false := by
    rw [← Bool.not_eq_true, contains_iff]
    exact mark_not_infix hname (c := 111) (by decide) (bytes "bjects")
  have hget : find (bytes "GET /get/") (getRequest name) = some 0 := by
    rw [getRequest, getHead, List.append_assoc, List.append_assoc]
    exact find_append_left _ _
  have hcount : sizeDiff (some (9 + name.length)) (0 + 9) = some name.length := by
    simp [sizeDiff]
  have hcut : substr (getRequest name) (0 + 9) (some name.length) = name := by
    have h9 : (bytes "GET /get/").length = 0 + 9 := by decide
    rw [substr, getRequest, getHead, List.append_assoc, List.append_assoc, List.drop_left' h9,
      List.take_left]
  rw [translateHttpToAscii]
  simp only [hrequest, hobjects, hget, find_version hname, hcount, hcut, Bool.false_eq_true,
    if_false]
  rfl

theorem asksForIndex_getRequest (hname : 32 ∉ name) :
    asksForIndex (getRequest name) = false := by
  have hpage : contains (bytes "GET / ") (getRequest name) = false := by
    rw [← Bool.not_eq_true, contains_iff]
    exact mark_not_infix hname (c := 32) (by decide) []
  have hshort : contains (bytes "GET /HTTP") (getRequest name) = false := by
    rw [← Bool.not_eq_true, contains_iff]
    exact mark_not_infix hname (c := 72) (by decide) (bytes "TTP")
  rw [asksForIndex, hpage, hshort]
  rfl

/-- No name makes a message for the objects. -/
theorem objects_not_in_getMessage (hslash : 47 ∉ name) :
    ¬ bytes "BEGIN/OBJECTS/END" <:+: getMessage name := by
  have hmark : bytes "BEGIN/OBJECTS/END" = bytes "BEGIN" ++ 47 :: bytes "OBJECTS/END" := by
    decide
  have hrest : bytes "OBJECTS/END" = 79 :: bytes "BJECTS/END" := by decide
  have hget : bytes "GET" = 71 :: bytes "ET" := by decide
  rw [hmark, getMessage_eq, sep_infix_iff (by decide) (by decide),
    sep_infix_iff (by decide) (by decide), sep_infix_iff (by decide) hslash]
  rintro (⟨-, hpre⟩ | ⟨hsuf, -⟩ | ⟨-, hpre⟩ | h)
  · rw [hrest, hget, List.cons_append, List.cons_prefix_cons] at hpre
    exact absurd hpre.1 (by decide)
  · exact absurd hsuf.length_le (by decide)
  · exact absurd hpre.length_le (by decide)
  · exact absurd h.length_le (by decide)

/-- The mark of the end comes early for the names that begin with `END`. -/
theorem end_infix_getMessage_iff (hslash : 47 ∉ name) :
    bytes "/END" <:+: bytes "BEGIN/GET/" ++ name ↔ bytes "END" <+: name := by
  have hsplit : bytes "BEGIN/GET/" ++ name
      = bytes "BEGIN" ++ 47 :: (bytes "GET" ++ 47 :: name) := by
    simp only [show bytes "BEGIN/GET/" = bytes "BEGIN" ++ 47 :: (bytes "GET" ++ [47]) by decide,
      List.append_assoc, List.cons_append, List.nil_append]
  have hfront : ¬ [69, 78, 68] <+: bytes "GET" ++ 47 :: name := by
    rw [show bytes "GET" = 71 :: bytes "ET" by decide, List.cons_append, List.cons_prefix_cons]
    exact fun h => absurd h.1 (by decide)
  have hlast : ¬ 47 :: [69, 78, 68] <:+: name := fun h => hslash (h.subset List.mem_cons_self)
  rw [bytes_end, bytes_end_word, hsplit, ← List.nil_append (47 :: [69, 78, 68]),
    sep_infix_iff (by simp) (by decide), sep_infix_iff (by simp) (by decide), List.nil_append]
  simp [hfront, hlast]

/-- **The name is cut out again**, unless it begins with `END`. -/
theorem dispatch_getMessage (hslash : 47 ∉ name) :
    dispatch (getMessage name)
      = .get (if bytes "END" <+: name then name ++ bytes "/END" else name) := by
  have hobjects : contains (bytes "BEGIN/OBJECTS/END") (getMessage name) = false := by
    rw [← Bool.not_eq_true, contains_iff]
    exact objects_not_in_getMessage hslash
  have hget : find (bytes "BEGIN/GET/") (getMessage name) = some 0 := by
    rw [getMessage, List.append_assoc]
    exact find_append_left _ _
  have h10 : (bytes "BEGIN/GET/").length = 0 + 10 := by decide
  by_cases hend : bytes "END" <+: name
  · -- the slash of `GET/` ends the name before it begins
    obtain ⟨rest, rfl⟩ := hend
    have hearly : find (bytes "/END") (getMessage (bytes "END" ++ rest)) = some 9 :=
      find_end (show ¬ bytes "/END" <:+: bytes "BEGIN/GET" by
        rw [← contains_iff]
        decide) (rest ++ bytes "/END")
    have hcount : sizeDiff (some 9) (0 + 10) = none := rfl
    have hcut : substr (getMessage (bytes "END" ++ rest)) (0 + 10) none
        = bytes "END" ++ rest ++ bytes "/END" := by
      rw [substr, getMessage, List.append_assoc, List.drop_left' h10]
    rw [dispatch, if_pos (List.prefix_append _ _)]
    simp only [hobjects, hget, hearly, hcount, hcut, Bool.false_eq_true, if_false]
  · have hlate : find (bytes "/END") (getMessage name) = some (10 + name.length) := by
      have h := find_end ((end_infix_getMessage_iff hslash).not.mpr hend) []
      rwa [List.append_nil, List.length_append, h10] at h
    have hcount : sizeDiff (some (10 + name.length)) (0 + 10) = some name.length := by
      simp [sizeDiff]
    have hcut : substr (getMessage name) (0 + 10) (some name.length) = name := by
      rw [substr, getMessage, List.append_assoc, List.drop_left' h10, List.take_left]
    rw [dispatch, if_neg hend]
    simp only [hobjects, hget, hlate, hcount, hcut, Bool.false_eq_true, if_false]

end Name

section Client

variable {name : CString} {pieces : List Bytes}

theorem askedName_getRequest (hslash : 47 ∉ name.bytes) (hspace : 32 ∉ name.bytes) :
    askedName (getRequest name.bytes)
      = some (if bytes "END" <+: name.bytes then name.bytes ++ bytes "/END"
        else name.bytes) := by
  have hnul : 0 ∉ getRequest name.bytes := by
    have hname := name.noNul
    simp only [getRequest, getHead, List.mem_append, not_or]
    refine ⟨⟨⟨?_, hname⟩, ?_⟩, ?_⟩
    all_goals decide
  have hrequest := CString.ofBytes_bytes hnul
  rw [askedName, asksForIndex_getRequest hspace, translate_getRequest hrequest hspace,
    dispatch_getMessage hslash]
  rfl

/-- **Which names reach the servers**: those that do not begin with `END`. -/
theorem askedName_iff (hslash : 47 ∉ name.bytes) (hspace : 32 ∉ name.bytes)
    (hbreak : 10 ∉ name.bytes) (hcut : Cut (getRequest name.bytes) pieces) :
    (readRequest (pieces.map .data) []).bind askedName = some name.bytes
      ↔ ¬ bytes "END" <+: name.bytes := by
  have hhead : 10 ∉ getHead name.bytes := by
    simp only [getHead, List.mem_append, not_or]
    exact ⟨⟨by decide, hbreak⟩, by decide⟩
  have hread : readRequest (pieces.map .data) [] = some (getRequest name.bytes) :=
    readRequest_whole hhead hcut.ne_nil hcut.flatten
  rw [hread, Option.bind_some, askedName_getRequest hslash hspace]
  split
  · rename_i hend
    have hlonger : name.bytes ++ bytes "/END" ≠ name.bytes := by
      simp [bytes_end]
    simp [hlonger, hend]
  · rename_i hend
    simp [hend]

end Client

/-- The cat is asked for. -/
theorem askedName_gato :
    (readRequest ([getRequest (bytes "gato")].map .data) []).bind askedName
      = some (bytes "gato") := by
  have hcut : Cut (getRequest (CString.ofBytes (bytes "gato")).bytes) [getRequest (bytes "gato")] :=
    cut_singleton (by decide) (by decide)
  exact (askedName_iff (by decide) (by decide) (by decide) hcut).mpr (by decide)

/-- For `ENDO` the servers are asked for `ENDO/END`. -/
theorem not_askedName_end :
    ¬ ∀ (name : CString) (pieces : List Bytes), name.bytes ≠ [] → 47 ∉ name.bytes →
      32 ∉ name.bytes → 13 ∉ name.bytes → 10 ∉ name.bytes →
      Cut (getRequest name.bytes) pieces →
      (readRequest (pieces.map .data) []).bind askedName = some name.bytes := by
  intro h
  have hasked := h (.ofBytes (bytes "ENDO")) [getRequest (bytes "ENDO")] (by decide) (by decide)
    (by decide) (by decide) (by decide) (cut_singleton (by decide) (by decide))
  revert hasked
  decide

end DistributedAscii.Server
