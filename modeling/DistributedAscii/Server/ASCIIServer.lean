import DistributedAscii.FileSystem.Code
import DistributedAscii.Lib.Search

/-!
# Server — the ASCII server

`ASCIIServer.cc`: the answer to a request (`validateRequest`), over the
bytes of the disk, and the announcement of the server. The `GET` loop
follows link bytes of the disk and has no bound of its own, so it runs on
fuel and `none` is a loop that has not returned.
-/

namespace DistributedAscii.Server

open FileSystem Lib.Search

/-- `while (next != 255)` of the `GET` answer: the C strings of the blocks,
each read up to the link byte, which the loop overwrites with the
terminator. -/
def drawingLoop (disk : Disk) (name : CString) : Nat → UInt8 → Bytes → Option Bytes
  | 0, _, _ => none
  | fuel + 1, next, asciiArt =>
      if next = 255 then some asciiArt
      else
        match extractBlock disk name next.toNat with
        | none => none
        | some block =>
            drawingLoop disk name fuel (block.getD 255 0)
              (asciiArt ++ untilNul (block.take 255))

/-- The drawing a `GET` reads. -/
def readDrawing (fuel : Nat) (disk : Disk) (name : CString) : Option Bytes :=
  drawingLoop disk name fuel 0 []

/-- `contenido`. -/
def drawingTitle (name : Bytes) : Bytes :=
  bytes "Este es el contenido del dibujo " ++ name ++ bytes ":\n"

/-- The answer to a `GET` of a stored drawing. -/
def drawingAnswer (name asciiArt : Bytes) : Bytes :=
  bytes "BEGIN/OK/" ++ drawingTitle name ++ asciiArt ++ bytes "/END"

/-- The answer to `OBJECTS`. -/
def objectsAnswer (disk : Disk) : Bytes :=
  bytes "BEGIN/OK/" ++ getSystemInfo disk ++ bytes "/END"

/-- `req.substr(0, 6) != "BEGIN/" || req.substr(req.length() - 4) != "/END"`.
The second `substr` is only reached by a request of 6 characters or more. -/
def badFrame (req : Bytes) : Bool :=
  req.take 6 ≠ bytes "BEGIN/" || req.drop (req.length - 4) ≠ bytes "/END"

/-- The tokens between the frame. For `BEGIN/END` the length falls below
zero, which `substr` reads as the rest of the string. -/
def requestTokens (req : Bytes) : List Bytes :=
  (substr req 6 (sizeDiff (some req.length) 10)).splitOn 47

/-- `validateRequest`. -/
def validateRequest (fuel : Nat) (disk : Disk) (request : CString) : Option Bytes :=
  let req := request.bytes
  if req = [] then
    some (bytes "BEGIN/ERROR/300/El mensaje está vacío o es inválido/END")
  else if badFrame req then some (bytes "BEGIN/ERROR/300/Formato de mensaje inválido/END")
  else
    match requestTokens req with
    | [command] =>
        if command = bytes "OBJECTS" then some (objectsAnswer disk)
        else some (bytes "BEGIN/ERROR/300/Mensaje no reconocido por el protocolo/END")
    | [command, ascii] =>
        if command = bytes "GET" then
          if existASCII disk (.ofBytes ascii) = exitSuccess then
            (readDrawing fuel disk (.ofBytes ascii)).map (drawingAnswer ascii)
          else some (bytes "BEGIN/ERROR/201/El dibujo solicitado no fue encontrado/END")
        else some (bytes "BEGIN/ERROR/300/Mensaje no reconocido por el protocolo/END")
    | _ => some (bytes "BEGIN/ERROR/300/Mensaje no reconocido por el protocolo/END")

/-- `std::to_string`. -/
def decimal (n : Nat) : Bytes :=
  (Nat.toDigits 10 n).map fun c => UInt8.ofNat c.toNat

/-- The message of `sendUdpAnnouncement`; `localIP` is a constant of the
source that stands for the server's address. -/
def announcement (offline : Bool) (localIP : Bytes) (port : Nat) : Bytes :=
  (if offline then bytes "BEGIN/OFF/SERVIDOR/" else bytes "BEGIN/ON/SERVIDOR/")
    ++ localIP ++ bytes "/" ++ decimal port ++ bytes "/END"

end DistributedAscii.Server
