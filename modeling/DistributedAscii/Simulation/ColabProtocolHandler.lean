import DistributedAscii.Lib.Search
import DistributedAscii.Server.Storage

/-!
# Simulation — the drawing server

`ColabProtocolHandler.cpp`: the answer to a request of the tenedor, over
the bytes of the disk. The loop of a `GET` is the one of the ASCII server
and may not return, so it runs on fuel.
-/

namespace DistributedAscii.Simulation

open FileSystem Lib.Search Server

/-- `nameList`. -/
def nameList : Bytes :=
  bytes ("CocaCola.txt\nExitante.txt\nFoca.txt\nGogeta.txt\n" ++
    "Goku.txt\nGoyoCat.txt\nPersonal.txt\n")

/-- `deleteFlags`: an end in front of the content wraps around, and `substr`
takes the rest of the request. -/
def deleteFlags (request : Bytes) : Bytes :=
  match find (bytes "BEGIN/") request, find (bytes "/END") request with
  | some initPos, some endPos =>
      substr request (initPos + 6) (sizeDiff (some endPos) (initPos + 6))
  | _, _ => []

/-- `determOperation`. -/
def determOperation (request : Bytes) : Int :=
  if request = bytes "ON" then 1
  else if request = bytes "OFF" then 2
  else if request = bytes "OK" then 3
  else if request = bytes "ERROR" then 4
  else if request = bytes "GET" then 5
  else -1

def objCase : Bytes :=
  bytes "BEGIN/OK/" ++ nameList ++ bytes "/END"

/-- `getCase`. -/
def getCase (fuel : Nat) (disk : Disk) (request : Bytes) : Option Bytes :=
  if existASCII disk (.ofBytes request) = exitSuccess then
    (readDrawing fuel disk (.ofBytes request)).map fun asciiArt =>
      bytes "BEGIN/OK/" ++ asciiArt ++ bytes "/END"
  else some (bytes "-1")

/-- `buildAnswer`; what `onCase`, `offCase`, `okCase` and `errorCase` return
is dropped, and the rest of the request is the answer. -/
def buildAnswer (fuel : Nat) (disk : Disk) (request : Bytes) : Option Bytes :=
  let response := deleteFlags request
  if response = [] then some (bytes "BEGIN/ERROR/200/END")
  else if response = bytes "OBJECTS" then some objCase
  else
    match find (bytes "/") response with
    | none => some (bytes "BEGIN/ERROR/300/END")
    | some pos =>
        let operationCase := determOperation (response.take pos)
        if operationCase = -1 then some (bytes "BEGIN/ERROR/300/END")
        else if operationCase = 5 then
          (getCase fuel disk (response.drop (pos + 1))).map fun response =>
            if response = bytes "-1" then bytes "BEGIN/ERROR/201/END" else response
        else some (response.drop (pos + 1))

theorem getCase_mono {fuel fuel' : Nat} {disk : Disk} {request response : Bytes}
    (h : getCase fuel disk request = some response) (hle : fuel ≤ fuel') :
    getCase fuel' disk request = some response := by
  unfold getCase at h ⊢
  split at h
  · rename_i hex
    obtain ⟨art, hart, rfl⟩ := Option.map_eq_some_iff.mp h
    rw [if_pos hex, readDrawing_mono hart hle]
    rfl
  · rename_i hex
    rwa [if_neg hex]

/-- Only the answer to a `GET` takes fuel, and more of it does not change
the answer. -/
theorem buildAnswer_mono {fuel fuel' : Nat} {disk : Disk} {request response : Bytes}
    (h : buildAnswer fuel disk request = some response) (hle : fuel ≤ fuel') :
    buildAnswer fuel' disk request = some response := by
  simp only [buildAnswer] at h ⊢
  split at h
  · rename_i hnil
    rwa [if_pos hnil]
  · rename_i hnil
    rw [if_neg hnil]
    split at h
    · rename_i hobjects
      rwa [if_pos hobjects]
    · rename_i hobjects
      rw [if_neg hobjects]
      cases hpos : find (bytes "/") (deleteFlags request) with
      | none => rwa [hpos] at h
      | some pos =>
          simp only [hpos] at h ⊢
          split at h
          · rename_i hop
            rwa [if_pos hop]
          · rename_i hop
            rw [if_neg hop]
            split at h
            · rename_i hget
              obtain ⟨answer, hanswer, rfl⟩ := Option.map_eq_some_iff.mp h
              rw [if_pos hget, getCase_mono hanswer hle]
              rfl
            · rename_i hget
              rwa [if_neg hget]

end DistributedAscii.Simulation
