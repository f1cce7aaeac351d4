import DistributedAscii.Simulation.Adapter
import DistributedAscii.Simulation.ColabProtocolHandler
import DistributedAscii.Simulation.SharedMemory

/-!
# Simulation — the threads

`Client::run`, `Tenedor::run` and `DrawingServer::run` as step functions
over the shared memory. The places of a thread are its accesses of the
shared memory; what it does on its own between two of them belongs to the
step before. Any thread that can step may be the next.

The trace is a history that no step reads: the messages in the order in
which they were written and read. The text of a message is the part in
front of its terminator, since `write` gets the `c_str()`.
-/

namespace DistributedAscii.Simulation

open FileSystem

/-- The two kinds of exchange of the tenedor with the server. -/
inductive Exchange where
  | figures
  | relay
deriving DecidableEq, Repr

/-- The places of `Client::run`; `first` is the wait for the list of
figures. -/
inductive ClientAt where
  | waitClient (first : Bool)
  | getline
  | setFinished
  | signalExit
  | write (call : WriteAt)
  | signalTenedor
  | read (call : ReadAt)
  | returned
deriving DecidableEq

/-- The places of `Tenedor::run`; `waitServer` is `waitTenedor` behind a
request to the server, `waitClient` the one that begins the loop. -/
inductive TenedorAt where
  | writeServer (e : Exchange) (call : WriteAt)
  | signalServer (e : Exchange)
  | waitServer (e : Exchange)
  | readServer (e : Exchange) (call : ReadAt)
  | writeClient (call : WriteAt)
  | signalClient
  | waitClient
  | getFinished
  | readClient (call : ReadAt)
  | returned
deriving DecidableEq

/-- The places of `DrawingServer::run`; at `answer` the fuel that was tried
grows until `buildAnswer` returns. -/
inductive ServerAt where
  | waitServer
  | getFinished
  | read (call : ReadAt)
  | answer (request : Bytes) (fuel : Nat)
  | write (call : WriteAt)
  | signalTenedor
  | returned
deriving DecidableEq

inductive Kind where
  | request
  | answer
deriving DecidableEq, Repr

structure Message where
  kind : Kind
  writer : Party
  reader : Party
  text : CString
deriving DecidableEq

/-- An entry of the trace; a reader expects its message from someone. -/
inductive Action where
  | wrote (m : Message)
  | got (reader writer : Party) (text : Bytes)
deriving DecidableEq

structure State where
  memory : SharedMemory
  client : ClientAt
  tenedor : TenedorAt
  server : ServerAt
  serverFigures : ServerFigures
  trace : List Action

/-- The threads at their first access. -/
def start (buffer : Fin 1024 → UInt8) : State where
  memory := .init buffer
  client := .waitClient true
  tenedor := .writeServer .figures (.store (.ofBytes getFiguresProtocol) 0)
  server := .waitServer
  serverFigures := []
  trace := []

def State.setRing (s : State) (ring : Lib.Ring UInt8 1024) : State :=
  { s with memory := { s.memory with ring := ring } }

def State.log (s : State) (a : Action) : State :=
  { s with trace := s.trace ++ [a] }

/-- `getline` returns `message`. -/
def inputStep (message : Bytes) (s : State) : Option State :=
  if s.client = .getline then
    if message = bytes "exit" ∨ message = bytes "Exit" then
      some { s with client := .setFinished }
    else some { s with client := .write (.store (.ofBytes message) 0) }
  else none

def clientStep (s : State) : Option State :=
  match s.client with
  | .waitClient first =>
      s.memory.waitClient.map fun memory =>
        { s with memory := memory
                 client := if first then .getline else .read (.load []) }
  | .getline => none
  | .setFinished =>
      some { s with memory := s.memory.setFinished true, client := .signalExit }
  | .signalExit => some { s with memory := s.memory.signalTenedor, client := .returned }
  | .write call =>
      let r := writeStep call s.memory.ring
      match r.2 with
      | some call => some { s.setRing r.1 with client := .write call }
      | none =>
          some { (s.setRing r.1).log (.wrote ⟨.request, .client, .tenedor, call.value⟩) with
            client := .signalTenedor }
  | .signalTenedor =>
      some { s with memory := s.memory.signalTenedor, client := .waitClient false }
  | .read call =>
      let r := readStep call s.memory.ring
      match r.2 with
      | .inr call => some { s.setRing r.1 with client := .read call }
      | .inl response =>
          some { (s.setRing r.1).log (.got .client .tenedor response) with client := .getline }
  | .returned => none

/-- What the tenedor does with the message of the client. -/
def TenedorAt.ofRequest (serverFigures : ServerFigures) (message : Bytes) : TenedorAt :=
  match buildRequest serverFigures message with
  | .error response => .writeClient (.store (.ofBytes response) 0)
  | .ok response => .writeServer .relay (.store (.ofBytes response) 0)

def tenedorStep (s : State) : Option State :=
  match s.tenedor with
  | .writeServer e call =>
      let r := writeStep call s.memory.ring
      match r.2 with
      | some call => some { s.setRing r.1 with tenedor := .writeServer e call }
      | none =>
          some { (s.setRing r.1).log (.wrote ⟨.request, .tenedor, .server, call.value⟩) with
            tenedor := .signalServer e }
  | .signalServer e =>
      some { s with memory := s.memory.signalServer, tenedor := .waitServer e }
  | .waitServer e =>
      s.memory.waitTenedor.map fun memory =>
        { s with memory := memory, tenedor := .readServer e (.load []) }
  | .readServer e call =>
      let r := readStep call s.memory.ring
      match r.2 with
      | .inr call => some { s.setRing r.1 with tenedor := .readServer e call }
      | .inl response =>
          let s' := (s.setRing r.1).log (.got .tenedor .server response)
          match e with
          | .figures =>
              some { s' with
                tenedor := .signalClient
                serverFigures := setServerFiguresByResponse s.serverFigures response }
          | .relay =>
              some { s' with
                tenedor := .writeClient (.store (.ofBytes (buildResponse response)) 0) }
  | .writeClient call =>
      let r := writeStep call s.memory.ring
      match r.2 with
      | some call => some { s.setRing r.1 with tenedor := .writeClient call }
      | none =>
          some { (s.setRing r.1).log (.wrote ⟨.answer, .tenedor, .client, call.value⟩) with
            tenedor := .signalClient }
  | .signalClient =>
      some { s with memory := s.memory.signalClient, tenedor := .waitClient }
  | .waitClient =>
      s.memory.waitTenedor.map fun memory =>
        { s with memory := memory, tenedor := .getFinished }
  | .getFinished =>
      some { s with
        tenedor := if s.memory.getFinished then .returned else .readClient (.load []) }
  | .readClient call =>
      let r := readStep call s.memory.ring
      match r.2 with
      | .inr call => some { s.setRing r.1 with tenedor := .readClient call }
      | .inl message =>
          some { (s.setRing r.1).log (.got .tenedor .client message) with
            tenedor := .ofRequest s.serverFigures message }
  | .returned => none

def serverStep (disk : Disk) (s : State) : Option State :=
  match s.server with
  | .waitServer =>
      s.memory.waitServer.map fun memory =>
        { s with memory := memory, server := .getFinished }
  | .getFinished =>
      some { s with
        server := if s.memory.getFinished then .returned else .read (.load []) }
  | .read call =>
      let r := readStep call s.memory.ring
      match r.2 with
      | .inr call => some { s.setRing r.1 with server := .read call }
      | .inl message =>
          some { (s.setRing r.1).log (.got .server .tenedor message) with
            server := .answer message 0 }
  | .answer request fuel =>
      match buildAnswer fuel disk request with
      | none => some { s with server := .answer request (fuel + 1) }
      | some response => some { s with server := .write (.store (.ofBytes response) 0) }
  | .write call =>
      let r := writeStep call s.memory.ring
      match r.2 with
      | some call => some { s.setRing r.1 with server := .write call }
      | none =>
          some { (s.setRing r.1).log (.wrote ⟨.answer, .server, .tenedor, call.value⟩) with
            server := .signalTenedor }
  | .signalTenedor =>
      some { s with memory := s.memory.signalTenedor, server := .waitServer }
  | .returned => none

/-- A step of the system: a line of the user, or a step of a thread. -/
inductive Event where
  | input (message : Bytes)
  | client
  | tenedor
  | server
deriving DecidableEq

def step (disk : Disk) (s : State) : Event → Option State
  | .input message => inputStep message s
  | .client => clientStep s
  | .tenedor => tenedorStep s
  | .server => serverStep disk s

end DistributedAscii.Simulation
