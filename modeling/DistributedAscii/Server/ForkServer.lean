import DistributedAscii.Lib.Search
import DistributedAscii.Text

/-!
# Server — the fork

`forkServer.cc`: the registry of servers, the discovery by datagrams, the
monitor, the routing of a `GET` and the relay of its answer. A `std::map`
is a `Std.ExtTreeMap`, ordered as `std::string` compares. A function that
can leave by an exception says so with its `Exit`; what it wrote before
stays written.

The network is a parameter: a session is what the `read`s on a connection
return, a query is what `requestFromServer` makes of it.
-/

namespace DistributedAscii.Server

open Lib.Search

/-! ## `requestFromServer` -/

/-- What one `read` on the socket does; no bytes are the end of the stream. -/
inductive ReadResult where
  | data (bytes : Bytes)
  | failed
deriving DecidableEq

/-- The read loop: `none` is the exception of a failed `read`. A session
that is over reads as closed. -/
def readLoop : List ReadResult → Bytes → Option Bytes
  | [], response => some response
  | .failed :: _, _ => none
  | .data buffer :: rest, response =>
      if buffer = [] then some response
      else if contains (bytes "/END") (response ++ buffer) then some (response ++ buffer)
      else readLoop rest (response ++ buffer)

/-- `requestFromServer` on a session, `none` if there is no connection. All
its exceptions become the one of `none`, an empty response among them. -/
def requestFromServer (session : Option (List ReadResult)) : Option Bytes :=
  match session with
  | none => none
  | some reads =>
      match readLoop reads [] with
      | none => none
      | some response => if response = [] then none else some response

/-! ## The registry -/

/-- `std::map<std::string, T>`. -/
abbrev StringMap (T : Type) := Std.ExtTreeMap Bytes T

structure Registry where
  knownServers : StringMap (Bytes × Int)
  serverObjects : StringMap (List Bytes)

/-- The registry of a new fork. -/
def Registry.empty : Registry where
  knownServers := ∅
  serverObjects := ∅

/-- How a call ends. -/
inductive Exit where
  | returned
  | threw
deriving DecidableEq

/-- The answer of an ASCII server to `BEGIN/OBJECTS/END`, by announced ip
and port; `none` is the exception of `requestFromServer`. -/
abbrev Query := Bytes → Int → Option Bytes

def isSpace (b : UInt8) : Bool :=
  b = 32 || (9 ≤ b && b ≤ 13)

def isDigit (b : UInt8) : Bool :=
  48 ≤ b && b ≤ 57

/-- The value of a string of digits. -/
def digitsValue (digits : Bytes) : Nat :=
  digits.foldl (fun n b => 10 * n + (b.toNat - 48)) 0

/-- The sign of a number, and what follows it. -/
def takeSign : Bytes → Bool × Bytes
  | 43 :: rest => (false, rest)
  | 45 :: rest => (true, rest)
  | s => (false, s)

/-- `std::stoi`: blanks, a sign, digits, anything; `none` is
`std::invalid_argument` or `std::out_of_range`. -/
def stoi (s : Bytes) : Option Int :=
  let signed := takeSign (s.dropWhile isSpace)
  let digits := signed.2.takeWhile isDigit
  let value : Int := if signed.1 then -(digitsValue digits) else digitsValue digits
  if digits = [] then none
  else if -2147483648 ≤ value ∧ value ≤ 2147483647 then some value
  else none

/-- The loop of `std::getline` over a string: the lines, of which the last
one is dropped if nothing follows the last line break. -/
def getLines (s : Bytes) : List Bytes :=
  let lines := s.splitOn 10
  if lines.getLast? = some [] then lines.dropLast else lines

/-- The names of an `OBJECTS` answer; `none` without the mark of success. -/
def objectsOf (answer : Bytes) : Option (List Bytes) :=
  (find (bytes "BEGIN/OK/") answer).map fun i =>
    getLines (substr answer (i + 9) (sizeDiff (find (bytes "/END") answer) (i + 9)))

/-- The ip and the text of the port that an `ON` datagram announces: what
lies between the mark, the next slash and the first `/END`. -/
def announcedText (message : Bytes) : Option (Bytes × Bytes) :=
  match find (bytes "BEGIN/ON/SERVIDOR/") message with
  | none => none
  | some i =>
      match findFrom (bytes "/") message (i + 18), find (bytes "/END") message with
      | some ipEnd, some portEnd =>
          some (substr message (i + 18) (some (ipEnd - (i + 18))),
            substr message (ipEnd + 1) (sizeDiff (some portEnd) (ipEnd + 1)))
      | _, _ => none

/-- The ip and the port that a datagram announces. -/
def announced (message : Bytes) : Option (Bytes × Int) :=
  (announcedText message).bind fun text => (stoi text.2).map fun port => (text.1, port)

/-- The `ON` branch of `processProtocolMessage`, once ip and port are there. -/
def register (query : Query) (senderIp ip : Bytes) (port : Int) (r : Registry) :
    Exit × Registry :=
  let r := { r with knownServers := r.knownServers.insert senderIp (ip, port) }
  match query ip port with
  | none => (.threw, r)
  | some objectsList =>
      match objectsOf objectsList with
      | none => (.returned, r)
      | some objects =>
          (.returned, { r with serverObjects := r.serverObjects.insert ip objects })

/-- `processProtocolMessage`. -/
def processProtocolMessage (query : Query) (message senderIp : Bytes) (r : Registry) :
    Exit × Registry :=
  if contains (bytes "BEGIN/ON/SERVIDOR/") message then
    match announcedText message with
    | none => (.returned, r)
    | some (ip, portText) =>
        match stoi portText with
        | none => (.threw, r)
        | some port => register query senderIp ip port r
  else if contains (bytes "BEGIN/OFF/SERVIDOR/") message then
    (.returned, { knownServers := r.knownServers.erase senderIp
                  serverObjects := r.serverObjects.erase senderIp })
  else (.returned, r)

/-! ## Discovery -/

/-- A datagram with its sender, and how the query it triggers will end. -/
structure Datagram where
  payload : Bytes
  senderIp : Bytes
  query : Query

/-- The body of the receive loop: `recvfrom` fills a buffer of 256 bytes and
drops the rest. -/
def receive (d : Datagram) (r : Registry) : Exit × Registry :=
  let message := d.payload.take 256
  if message = [] then (.returned, r)
  else processProtocolMessage d.query message d.senderIp r

/-- The receive loop of `udpDiscoveryHandler`. The `try` stands around it,
so an exception ends it. -/
def udpDiscoveryHandler : List Datagram → Registry → Exit × Registry
  | [], r => (.returned, r)
  | d :: rest, r =>
      match receive d r with
      | (.returned, r') => udpDiscoveryHandler rest r'
      | (.threw, r') => (.threw, r')

/-! ## Requests of clients -/

/-- `serverObjects.count(ip)` and `std::find` over its names. -/
def hasObject (r : Registry) (ip objectName : Bytes) : Bool :=
  match r.serverObjects[ip]? with
  | none => false
  | some objects => objectName ∈ objects

/-- Where `init` forwards a `GET`: the first known server, in the order of
the map, that has the object. -/
def routeGet (r : Registry) (objectName : Bytes) : Option (Bytes × Int) :=
  (r.knownServers.toList.find? fun server => hasObject r server.2.1 objectName).map Prod.snd

/-- The names that `init` lists for `OBJECTS`, in the order of the map. -/
def listObjects (r : Registry) : List Bytes :=
  r.serverObjects.toList.flatMap Prod.snd

/-- `translateAsciiToHttp`. -/
def translateAsciiToHttp (asciiResponse : CString) : Bytes :=
  let response := asciiResponse.bytes
  match find (bytes "BEGIN/ERROR/") response with
  | some i =>
      let codeEnd := findFrom (bytes "/") response (i + 12)
      let code := substr response (i + 12) (sizeDiff codeEnd (i + 12))
      -- past the end of the answer `codeEnd + 1` wraps around to 0
      let message :=
        match codeEnd with
        | some e => substr response (e + 1) (sizeDiff (some response.length) (e + 5))
        | none => substr response 0 (sizeDiff (some response.length) 4)
      bytes "HTTP/1.1 " ++ code ++ bytes " Error\r\nContent-Type: text/plain\r\n\r\n" ++ message
  | none =>
      if contains (bytes "BEGIN/OK/") response then
        bytes "HTTP/1.1 200 OK\r\nContent-Type: text/plain; charset=utf-8\r\n\r\n"
          ++ substr response 9 (sizeDiff (some response.length) 13)
      else
        bytes ("HTTP/1.1 500 Internal Server Error\r\n" ++
          "Content-Type: text/plain\r\n\r\nInvalid server response format")

/-! ## The monitor -/

def maxRetries : Nat := 3

/-- The queries to one server: the names of the first answer with the mark
of success. An exception is caught and counts as a try. -/
def monitorQuery (answers : List (Option Bytes)) : Option (List Bytes) :=
  (answers.take maxRetries).findSome? fun answer => answer.bind objectsOf

/-- What the monitor writes after the queries to a server announced as `ip`. -/
def monitorWrite (ip : Bytes) (r : Registry) : Option (List Bytes) → Registry
  | some objects => { r with serverObjects := r.serverObjects.insert ip objects }
  | none => { knownServers := r.knownServers.erase ip
              serverObjects := r.serverObjects.erase ip }

/-- The visit of the monitor to one entry of its copy. -/
def monitorVisit (answers : Bytes → List (Option Bytes)) (r : Registry)
    (server : Bytes × Bytes × Int) : Registry :=
  monitorWrite server.2.1 r (monitorQuery (answers server.1))

/-- One round of `monitorServers` with nothing in between; the answers are
those to the queries of each entry. -/
def monitorRound (answers : Bytes → List (Option Bytes)) (r : Registry) : Registry :=
  r.knownServers.toList.foldl (monitorVisit answers) r

end DistributedAscii.Server
