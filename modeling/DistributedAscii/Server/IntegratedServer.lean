import DistributedAscii.Server.HttpRequests

/-!
# Server — the server that speaks HTTP itself

`Server.cpp` of the integrated project: one process that translates a
request into an ASCII message, answers the message from its own disk and
translates the answer back. Its file system is that of the ASCII server, and
so is the frame of a message.

A request that the first stage does not know becomes a message with the
code 400. No later stage has a case for it: here the message is one the
protocol does not know, and the fork has no answer for it at all.
-/

namespace DistributedAscii.Server

open FileSystem Lib.Search

namespace Integrated

/-! ## The code -/

/-- `translateHttpToAscii`, word for word that of the fork. -/
def translateHttpToAscii (httpRequest : CString) : Bytes :=
  Server.translateHttpToAscii httpRequest

/-- `asciiList`. -/
def asciiList : Bytes :=
  bytes ("CocaCola.txt, Exitante.txt, Foca.txt, Gogeta.txt, " ++
    "Goku.txt, GoyoCat.txt, Personal.txt")

/-- The last line of `validateRequest`. -/
def notRecognised : Bytes :=
  bytes "BEGIN/ERROR/300/Mensaje no reconocido por el protocolo/END"

/-- The `GET` branch of `validateRequest`; the drawing has no title here. -/
def getAnswer (fuel : Nat) (disk : Disk) (ascii : Bytes) : Option Bytes :=
  if existASCII disk (.ofBytes ascii) = exitSuccess then
    (readDrawing fuel disk (.ofBytes ascii)).map fun asciiArt =>
      bytes "BEGIN/OK/" ++ asciiArt ++ bytes "/END"
  else some (bytes "BEGIN/ERROR/201/El dibujo solicitado no fue encontrado/END")

/-- `validateRequest`. -/
def validateRequest (fuel : Nat) (disk : Disk) (request : CString) : Option Bytes :=
  let req := request.bytes
  if req = [] then
    some (bytes "BEGIN/ERROR/300/El mensaje está vacío o es inválido/END")
  else if badFrame req then some (bytes "BEGIN/ERROR/300/Formato de mensaje inválido/END")
  else
    match requestTokens req with
    | [] => some (bytes "BEGIN/ERROR/300/Mensaje mal formateado/END")
    | [command] =>
        if command = bytes "OBJECTS" then some (bytes "BEGIN/OK/" ++ asciiList ++ bytes "/END")
        else some notRecognised
    | command :: what :: rest =>
        if command = bytes "GET" ∧ rest = [] then getAnswer fuel disk (what ++ bytes ".txt")
        else if command = bytes "ON" ∧ what = bytes "SERVIDOR" ∧ rest.length = 2 then
          some (bytes "BEGIN/OK/Servidor registrado/END")
        else if command = bytes "ON" ∧ what = bytes "TENEDOR" then
          some (bytes "BEGIN/OK/Tenedor registrado/END")
        else if command = bytes "OFF" ∧ what = bytes "SERVIDOR" ∧ rest.length = 2 then
          some (bytes "BEGIN/OK/Servidor desconectado/END")
        else some notRecognised

/-- A response with its length. -/
def httpResponse (status contentType content : Bytes) : Bytes :=
  bytes "HTTP/1.1 " ++ status ++ bytes "\r\nContent-Type: " ++ contentType
    ++ bytes "\r\nContent-Length: " ++ decimal content.length
    ++ bytes "\r\nConnection: close\r\n\r\n" ++ content

/-- `translateAsciiToHttp`. -/
def translateAsciiToHttp (asciiResponse : CString) : Bytes :=
  let response := asciiResponse.bytes
  match find (bytes "BEGIN/ERROR/") response with
  | some i =>
      let codeEnd := findFrom (bytes "/") response (i + 12)
      let code := substr response (i + 12) (sizeDiff codeEnd (i + 12))
      -- past the end of the answer `codeEnd + 1` wraps around to 0
      let message :=
        match codeEnd with
        | some e => substr response (e + 1) (sizeDiff (some response.length) (e + 5))
        | none => substr response 0 (sizeDiff (some response.length) 4)
      httpResponse (code ++ bytes " Error") (bytes "text/plain") message
  | none =>
      if contains (bytes "BEGIN/OK/") response then
        httpResponse (bytes "200 OK") (bytes "text/plain; charset=utf-8")
          (substr response 9 (sizeDiff (some response.length) 13))
      else
        httpResponse (bytes "500 Internal Server Error") (bytes "text/plain")
          (bytes "Invalid server response format")

/-- `handleRequest`. -/
def handleRequest (fuel : Nat) (disk : Disk) (request : CString) : Option Bytes :=
  (validateRequest fuel disk request).map fun response =>
    translateAsciiToHttp (.ofBytes response)

/-- What `task` sends to the client of a request. -/
def task (fuel : Nat) (disk : Disk) (httpRequest : CString) : Option Bytes :=
  handleRequest fuel disk (.ofBytes (translateHttpToAscii httpRequest))

end Integrated

/-! ## Requests that no route takes -/

/-- The client is told that its request is a bad one. -/
def BadRequest (answer : Option Bytes) : Prop :=
  ∃ response, answer = some response ∧ bytes "HTTP/1.1 400" <+: response

section Invalid

variable (httpRequest : CString)

/-- The fork answers with its own status for a malformed answer: nothing is
asked of a server, and nothing is what it translates. -/
theorem serveClient_invalid (servers : Sessions) (r : Registry)
    (hindex : asksForIndex httpRequest.bytes = false)
    (hinvalid : translateHttpToAscii httpRequest = invalidRequest) :
    serveClient servers r httpRequest.bytes
      = some (bytes ("HTTP/1.1 500 Internal Server Error\r\n" ++
          "Content-Type: text/plain\r\n\r\nInvalid server response format")) := by
  have hrequest : CString.ofBytes httpRequest.bytes = httpRequest :=
    CString.ext (CString.ofBytes_bytes httpRequest.noNul)
  have hdispatch : dispatch invalidRequest = .nothing := by decide
  have hresponse : asciiResponse servers r invalidRequest = some [] := by
    rw [asciiResponse, hdispatch]
  have hhttp : translateAsciiToHttp (.ofBytes [])
      = bytes ("HTTP/1.1 500 Internal Server Error\r\n" ++
          "Content-Type: text/plain\r\n\r\nInvalid server response format") := by
    decide
  rw [serveClient, hindex, if_neg Bool.false_ne_true, hrequest, hinvalid, hresponse,
    Option.map_some, hhttp]

/-- The message of an invalid request has three tokens, and its code is the
second of them. -/
theorem requestTokens_invalid :
    requestTokens invalidRequest
      = [bytes "ERROR", bytes "400", bytes "Invalid HTTP request"] := by
  decide

/-- The integrated server answers that its protocol has no such message. -/
theorem Integrated.validateRequest_invalid (fuel : Nat) (disk : Disk) :
    Integrated.validateRequest fuel disk (.ofBytes invalidRequest)
      = some Integrated.notRecognised := by
  have hmessage : (CString.ofBytes invalidRequest).bytes = invalidRequest := by decide
  have hne : invalidRequest ≠ [] := by decide
  have hframe : badFrame invalidRequest = false := by decide
  rw [Integrated.validateRequest, hmessage, if_neg hne, hframe, if_neg Bool.false_ne_true,
    requestTokens_invalid]
  -- neither `GET`, `ON` nor `OFF` is its first token
  simp [show bytes "ERROR" ≠ bytes "GET" by decide, show bytes "ERROR" ≠ bytes "ON" by decide,
    show bytes "ERROR" ≠ bytes "OFF" by decide]

theorem Integrated.task_invalid (fuel : Nat) (disk : Disk)
    (hinvalid : Integrated.translateHttpToAscii httpRequest = invalidRequest) :
    Integrated.task fuel disk httpRequest
      = some (Integrated.httpResponse (bytes "300 Error") (bytes "text/plain")
          (bytes "Mensaje no reconocido por el protocolo")) := by
  have hhttp : Integrated.translateAsciiToHttp (.ofBytes Integrated.notRecognised)
      = Integrated.httpResponse (bytes "300 Error") (bytes "text/plain")
          (bytes "Mensaje no reconocido por el protocolo") := by
    decide
  rw [Integrated.task, hinvalid, Integrated.handleRequest, Integrated.validateRequest_invalid,
    Option.map_some, hhttp]

/-- **No invalid request is answered with 400**, by neither program. -/
theorem not_badRequest (servers : Sessions) (r : Registry) (fuel : Nat) (disk : Disk)
    (hindex : asksForIndex httpRequest.bytes = false)
    (hinvalid : translateHttpToAscii httpRequest = invalidRequest) :
    ¬ BadRequest (serveClient servers r httpRequest.bytes)
      ∧ ¬ BadRequest (Integrated.task fuel disk httpRequest) := by
  constructor
  · rw [serveClient_invalid httpRequest servers r hindex hinvalid]
    rintro ⟨response, hresponse, hstatus⟩
    obtain rfl := Option.some.inj hresponse
    revert hstatus
    decide
  · rw [Integrated.task_invalid httpRequest fuel disk hinvalid]
    rintro ⟨response, hresponse, hstatus⟩
    obtain rfl := Option.some.inj hresponse
    revert hstatus
    decide

end Invalid

/-- A method that no route has. -/
theorem not_badRequest_put :
    ¬ BadRequest (serveClient (fun _ _ _ => none) .empty (bytes "PUT /gato HTTP/1.1\r\n\r\n"))
      ∧ ¬ BadRequest (Integrated.task 0 [] (.ofBytes (bytes "PUT /gato HTTP/1.1\r\n\r\n"))) := by
  apply not_badRequest (.ofBytes (bytes "PUT /gato HTTP/1.1\r\n\r\n"))
  · decide
  · decide

theorem badRequest_fails :
    ¬ ∀ (servers : Sessions) (r : Registry) (fuel : Nat) (disk : Disk) (httpRequest : CString),
      asksForIndex httpRequest.bytes = false →
      translateHttpToAscii httpRequest = invalidRequest →
      BadRequest (serveClient servers r httpRequest.bytes)
        ∧ BadRequest (Integrated.task fuel disk httpRequest) := by
  intro h
  have hbad := h (fun _ _ _ => none) .empty 0 [] (.ofBytes (bytes "PUT /gato HTTP/1.1\r\n\r\n"))
    (by decide) (by decide)
  have hserved := serveClient_invalid (.ofBytes (bytes "PUT /gato HTTP/1.1\r\n\r\n"))
    (fun _ _ _ => none) .empty (by decide) (by decide)
  rw [hserved] at hbad
  obtain ⟨⟨response, hresponse, hstatus⟩, -⟩ := hbad
  obtain rfl := Option.some.inj hresponse
  revert hstatus
  decide

end DistributedAscii.Server
