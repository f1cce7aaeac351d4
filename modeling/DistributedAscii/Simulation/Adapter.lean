import DistributedAscii.Lib.Search
import DistributedAscii.Server.ASCIIServer
import DistributedAscii.Server.ForkServer

/-!
# Simulation — the adapter of the tenedor

`RequestColabHTTPAdapter.h`: what the tenedor makes of a request of the
client, and of an answer of the drawing server. A function of the source
that returns its code and writes a `response` is an `Except` here, with the
answer for the client as the error.

Positions are compared as the `size_t` they are: `npos` is the largest one
and the difference of a short length wraps around.
-/

namespace DistributedAscii.Simulation

open Lib.Search Server

/-- `std::string::npos`. -/
def npos : Nat := 2 ^ 64 - 1

/-- The position that `find` or `rfind` returns. -/
def position (found : Option Nat) : Nat :=
  found.getD npos

/-- `a - b` of two `size_t`. -/
def sizeSub (a b : Nat) : Nat :=
  (a + 2 ^ 64 - b) % 2 ^ 64

/-! ## HTTP answers -/

/-- A status line, the type and the length of the body, and the body. -/
def httpResponse (status body : Bytes) : Bytes :=
  bytes "HTTP/1.1 " ++ status ++ bytes "\r\nContent-Type: text/plain\r\nContent-Length: "
    ++ decimal body.length ++ bytes "\r\n\r\n" ++ body

def httpFigure (rest : Bytes) : Bytes :=
  httpResponse (bytes "200 OK") rest

def httpErrorCode (rest : Bytes) : Bytes :=
  httpResponse (bytes "500 Internal Server Error") rest

def httpErrorFromServer : Bytes :=
  httpResponse (bytes "Unknown Server Error") []

def httpBadRequest : Bytes :=
  httpResponse (bytes "400 Bad Request") []

/-- `std::to_string` of an `int`. -/
def decimalInt (n : Int) : Bytes :=
  if n < 0 then 45 :: decimal n.natAbs else decimal n.natAbs

/-- `serverFigures`: the objects of each server under its number. -/
abbrev ServerFigures := List (Int32 × List Bytes)

/-- A line for each object, with the number of its server. -/
def figureLines (serverFigures : ServerFigures) : List Bytes :=
  serverFigures.flatMap fun figure => figure.2.map fun object =>
    decimalInt figure.1.toInt ++ bytes "/" ++ object

def httpObtenerObjects (serverFigures : ServerFigures) : Bytes :=
  httpResponse (bytes "200 OK") ((figureLines serverFigures).flatMap (· ++ bytes "\n"))

/-! ## Requests of the client -/

/-- The `find_if` over `serverFigures`. -/
def hasFigure (serverFigures : ServerFigures) (objectId : Int) (objectName : Bytes) : Bool :=
  serverFigures.any fun figure => figure.1.toInt = objectId && objectName ∈ figure.2

/-- The text between `GET ` and `HTTP/1.1`, without the first character,
the last one, and a slash in front. -/
def requestContent (request : Bytes) : Bytes :=
  let stop := position (rfind (bytes "HTTP/1.1") request)
  let content := substr request 5 (some (stop - 5 - 1))
  if content.head? = some 47 then content.tail else content

/-- `buildRequest`: `.ok` is the request to the server (`EXIT_SUCCESS`),
`.error` the answer to the client. -/
def buildRequest (serverFigures : ServerFigures) (request : Bytes) : Except Bytes Bytes :=
  let stop := position (rfind (bytes "HTTP/1.1") request)
  if position (find (bytes "GET ") request) ≠ 0 || stop ≠ sizeSub request.length 8 then
    .error httpBadRequest
  else if stop = npos || stop ≤ 5 then .error httpBadRequest
  else
    let contentSplitted := (requestContent request).splitOn 47
    if contentSplitted.getLast? = some [] then .error httpBadRequest
    else
      match contentSplitted with
      | [object] =>
          if object = bytes "objects" then .error (httpObtenerObjects serverFigures)
          else .error httpBadRequest
      | [object, id, objectName] =>
          if object = bytes "object" then
            match stoi id with
            | none => .error httpBadRequest
            | some objectId =>
                if hasFigure serverFigures objectId objectName then
                  .ok (bytes "BEGIN/GET/" ++ objectName ++ bytes "/END")
                else .error httpBadRequest
          else .error httpBadRequest
      | _ => .error httpBadRequest

/-! ## Answers of the server -/

/-- `getContent`: what lies between the marks of a framed message. -/
def getContent (request : Bytes) : Except Bytes Bytes :=
  let stop := position (rfind (bytes "/END") request)
  if position (rfind (bytes "BEGIN/") request) ≠ 0 || stop ≠ sizeSub request.length 4 then
    .error httpBadRequest
  else if stop ≤ 6 then .error httpBadRequest
  else .ok (substr request 6 (some (stop - 6)))

def getCommandAndRest (response : Bytes) : Bytes × Bytes :=
  match find (bytes "/") response with
  | some pos => (response.take pos, response.drop (pos + 1))
  | none => ([], [])

def checkFirstInput (commandRest : Bytes × Bytes) : Bytes :=
  if commandRest.1 = bytes "OK" then httpFigure commandRest.2
  else if commandRest.1 = bytes "ERROR" then httpErrorCode commandRest.2
  else httpErrorFromServer

def buildResponse (request : Bytes) : Bytes :=
  match getContent request with
  | .error response => response
  | .ok content => checkFirstInput (getCommandAndRest content)

def getFiguresProtocol : Bytes :=
  bytes "BEGIN/OBJECTS/END"

/-- `setServerFiguresByResponse`; the lines that are empty are skipped, and
the size of the vector becomes an `int`. -/
def setServerFiguresByResponse (serverFigures : ServerFigures) (response : Bytes) :
    ServerFigures :=
  match getContent response with
  | .error _ => serverFigures
  | .ok content =>
      let commandRest := getCommandAndRest content
      if commandRest.1 = bytes "OK" then
        serverFigures
          ++ [(.ofNat serverFigures.length, (commandRest.2.splitOn 10).filter (· ≠ []))]
      else serverFigures

end DistributedAscii.Simulation
