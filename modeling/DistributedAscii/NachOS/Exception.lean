import DistributedAscii.Lib.Outcome
import DistributedAscii.NachOS.Machine
import DistributedAscii.NachOS.OpenFilesTable

/-!
# NachOS — the system calls

The handlers of `userprog/exception.cc` for files, `Fork` and sockets. What
the host answers to a Unix call is `Unix`; what other threads have left
behind while this one waited for `Console` is `Others`. Between `P` and `V`
nobody else runs. What is printed for the reader of the log is left out.
-/

namespace DistributedAscii.NachOS

open Lib.Outcome

/-- What a system call asks of the host. -/
inductive HostCall where
  | open (name : List Byte)
  | read (fd : Int) (nBytes : Nat)
  | write (fd : Int) (buffer : List Byte)
  | close (fd : Int)
  | print (buffer : List Byte)
  | printInt (value : Int)
  | socket (domain type : Int)
  | connect (fd domain port : Int) (address : List Byte)
deriving DecidableEq, Repr

/-- The answers of the host; `read` has none for an error, and does not read
more than it is asked for. -/
structure Unix where
  openRdWr : List Byte → Int
  read : Int → Nat → Option (List Byte)
  write : Int → List Byte → Int
  close : Int → Int
  socket : Int → Int → Int
  connect : Int → Int → Int → List Byte → Int
  read_le : ∀ {fd nBytes buffer}, read fd nBytes = some buffer → buffer.length ≤ nBytes

/-- What the threads of a program share. -/
structure Others where
  mainMemory : Nat → Byte
  openFilesTable : NachosOpenFilesTable
  MiMapa : BitMap
  IPv6 : Bool

/-- The kernel inside a system call: the machine and what `currentThread`
points to. `acquired` and `released` count the calls of `Console`, `forked`
has the address space and the routine of each new thread. -/
structure Kernel extends Machine where
  openFilesTable : NachosOpenFilesTable
  MiMapa : BitMap
  IPv6 : Bool
  acquired : Nat
  released : Nat
  forked : List (AddrSpace × Word)
  host : List HostCall

namespace Kernel

def WriteRegister (k : Kernel) (num : Nat) (value : Word) : Kernel :=
  { k with toMachine := k.toMachine.WriteRegister num value }

def ReadMem (k : Kernel) (addr : Word) : Except Crash (Kernel × Option Word) := do
  let r ← k.toMachine.ReadMem addr
  .ok ({ k with toMachine := r.1 }, r.2)

def WriteMem (k : Kernel) (addr : Word) (value : Byte) : Except Crash (Kernel × Bool) := do
  let r ← k.toMachine.WriteMem addr value
  .ok ({ k with toMachine := r.1 }, r.2)

/-- `Console->P()`. -/
def P (k : Kernel) (others : Others) : Kernel :=
  { k with
    mainMemory := others.mainMemory
    openFilesTable := others.openFilesTable
    MiMapa := others.MiMapa
    IPv6 := others.IPv6
    acquired := k.acquired + 1 }

@[simp] theorem ReadRegister_P (k : Kernel) (others : Others) (r : Nat) :
    (k.P others).ReadRegister r = k.ReadRegister r := rfl

/-- `Console->V()`. -/
def V (k : Kernel) : Kernel :=
  { k with released := k.released + 1 }

def ask (k : Kernel) (call : HostCall) : Kernel :=
  { k with host := k.host ++ [call] }

def setOpenFilesTable (k : Kernel) (openFilesTable : NachosOpenFilesTable) : Kernel :=
  { k with openFilesTable := openFilesTable }

def setIPv6 (k : Kernel) (IPv6 : Bool) : Kernel :=
  { k with IPv6 := IPv6 }

/-- `newT->Fork(NachosForkThread, routine)`, on an address space for which
pages were taken from the map. -/
def addChild (k : Kernel) (space : AddrSpace) (MiMapa : BitMap) (routine : Word) : Kernel :=
  { k with MiMapa := MiMapa, forked := k.forked ++ [(space, routine)] }

def returnFromSystemCall (k : Kernel) : Kernel :=
  let k := k.WriteRegister PrevPCReg (k.ReadRegister PCReg)
  let k := k.WriteRegister PCReg (k.ReadRegister NextPCReg)
  k.WriteRegister NextPCReg (k.ReadRegister NextPCReg + 4)

/-- `RaiseException(SyscallException, 0)`, as far as the handler. -/
def trap (k : Kernel) : Kernel :=
  { k with toMachine := k.toMachine.raise 0 }

/-- `new char[size]`. -/
def newChar (size : Int) : Except Crash PUnit :=
  check (0 ≤ size) .badAlloc

/-! ## sysdep.cc -/

def OpenForReadWrite (unix : Unix) (name : List Byte) (crashOnError : Bool) :
    Except Crash Int := do
  let fd := unix.openRdWr name
  check (crashOnError = false ∨ 0 ≤ fd) .assertion
  .ok fd

def WriteFile (unix : Unix) (fd : Int) (buffer : List Byte) (nBytes : Int) :
    Except Crash PUnit :=
  check (unix.write fd buffer = nBytes) .assertion

def Close (unix : Unix) (fd : Int) : Except Crash PUnit :=
  check (0 ≤ unix.close fd) .assertion

/-! ## The copy loops -/

/-- `while(c)` of `NachOS_Open`, with `room` places of `name` left; a read
that fails leaves `c` as it was. -/
def readName (k : Kernel) (direc c : Word) (name : List Byte) :
    Nat → Except Crash (Kernel × List Byte)
  | 0 => do
      let _ ← k.ReadMem direc
      .error .outOfBounds
  | room + 1 => do
      let r ← k.ReadMem direc
      let c := r.2.getD c
      let name := name ++ [c.setWidth 8]
      if c = 0 then .ok (r.1, name) else readName r.1 (direc + 1) c name room

/-- The loop of `NachOS_Write`; there is no buffer if a read fails. -/
def copyIn (k : Kernel) (direc : Word) : Nat → Except Crash (Kernel × Option (List Byte))
  | 0 => .ok (k, some [])
  | size + 1 => do
      let r ← k.ReadMem direc
      match r.2 with
      | none => .ok (r.1, none)
      | some c => do
          let rest ← copyIn r.1 (direc + 1) size
          .ok (rest.1, rest.2.map (c.setWidth 8 :: ·))

/-- The loop of `NachOS_Read`. -/
def copyOut (k : Kernel) (virtualAddr : Word) : List Byte → Except Crash (Kernel × Bool)
  | [] => .ok (k, true)
  | byte :: rest => do
      let r ← k.WriteMem virtualAddr byte
      if r.2 then copyOut r.1 (virtualAddr + 1) rest else .ok (r.1, false)

/-- The loop of `NachOS_Connect`, which breaks at the end of the string. -/
def copyAddress (k : Kernel) (direc : Word) : Nat → Except Crash (Kernel × Option (List Byte))
  | 0 => .ok (k, some [])
  | n + 1 => do
      let r ← k.ReadMem direc
      match r.2 with
      | none => .ok (r.1, none)
      | some c =>
          if c = 0 then .ok (r.1, some [])
          else do
            let rest ← copyAddress r.1 (direc + 1) n
            .ok (rest.1, rest.2.map (c.setWidth 8 :: ·))

/-! ## What the loops keep -/

section

variable {P : Kernel → Prop} {k : Kernel}

theorem readName_keeps (hread : ∀ {k addr r}, P k → k.ReadMem addr = .ok r → P r.1)
    {direc c : Word} {name : List Byte} {room : Nat} {r : Kernel × List Byte} (h : P k)
    (hcopy : k.readName direc c name room = .ok r) : P r.1 := by
  induction room generalizing k direc c name with
  | zero =>
      obtain ⟨_, -, hrest⟩ := bind_eq_ok.mp hcopy
      cases hrest
  | succ room ih =>
      obtain ⟨k₂, hfirst, hrest⟩ := bind_eq_ok.mp hcopy
      have hk₂ := hread h hfirst
      dsimp only at hrest
      split at hrest
      · cases hrest
        exact hk₂
      · exact ih hk₂ hrest

theorem copyIn_keeps (hread : ∀ {k addr r}, P k → k.ReadMem addr = .ok r → P r.1)
    {direc : Word} {size : Nat} {r : Kernel × Option (List Byte)} (h : P k)
    (hcopy : k.copyIn direc size = .ok r) : P r.1 := by
  induction size generalizing k direc r with
  | zero =>
      cases hcopy
      exact h
  | succ size ih =>
      obtain ⟨⟨k₂, value⟩, hfirst, hrest⟩ := bind_eq_ok.mp hcopy
      have hk₂ := hread h hfirst
      cases value with
      | none =>
          cases hrest
          exact hk₂
      | some c =>
          obtain ⟨rest, hloop, hr⟩ := bind_eq_ok.mp hrest
          cases hr
          exact ih (r := rest) hk₂ hloop

theorem copyAddress_keeps (hread : ∀ {k addr r}, P k → k.ReadMem addr = .ok r → P r.1)
    {direc : Word} {n : Nat} {r : Kernel × Option (List Byte)} (h : P k)
    (hcopy : k.copyAddress direc n = .ok r) : P r.1 := by
  induction n generalizing k direc r with
  | zero =>
      cases hcopy
      exact h
  | succ n ih =>
      obtain ⟨⟨k₂, value⟩, hfirst, hrest⟩ := bind_eq_ok.mp hcopy
      have hk₂ := hread h hfirst
      cases value with
      | none =>
          cases hrest
          exact hk₂
      | some c =>
          dsimp only at hrest
          split at hrest
          · cases hrest
            exact hk₂
          · obtain ⟨rest, hloop, hr⟩ := bind_eq_ok.mp hrest
            cases hr
            exact ih (r := rest) hk₂ hloop

theorem copyOut_keeps (hwrite : ∀ {k addr value r}, P k → k.WriteMem addr value = .ok r → P r.1)
    {virtualAddr : Word} {bytes : List Byte} {r : Kernel × Bool} (h : P k)
    (hcopy : k.copyOut virtualAddr bytes = .ok r) : P r.1 := by
  induction bytes generalizing k virtualAddr with
  | nil =>
      cases hcopy
      exact h
  | cons byte rest ih =>
      obtain ⟨⟨k₂, stored⟩, hfirst, hrest⟩ := bind_eq_ok.mp hcopy
      have hk₂ := hwrite h hfirst
      cases stored with
      | false =>
          cases hrest
          exact hk₂
      | true => exact ih hk₂ hrest

end

/-! ## The handlers -/

def ConsoleInput : Int := 0
def ConsoleOutput : Int := 1
def ConsoleError : Int := 2

def NachOS_Open (unix : Unix) (k : Kernel) : Except Crash Kernel := do
  let direc := k.ReadRegister 4
  let r ← k.readName direc 1 [] 128
  let k := r.1
  let name := r.2
  -- `name[index] = 0`
  check (name.length < 128) .outOfBounds
  let path := name.takeWhile (· ≠ 0)
  let k := k.ask (.open path)
  let unixHandle ← OpenForReadWrite unix path true
  if unixHandle = -1 then .ok (k.WriteRegister 2 (-1)).returnFromSystemCall
  else
    let opened := k.openFilesTable.Open unixHandle
    .ok ((k.setOpenFilesTable opened.2).WriteRegister 2
      (BitVec.ofInt 32 opened.1)).returnFromSystemCall

/-- `NachOS_Read` behind the tests of `size`. The one for `NULL` behind `new`
is left out, `new` does not return it. -/
def readFrom (unix : Unix) (virtualAddr : Word) (size id : Int) (k : Kernel) :
    Except Crash Kernel := do
  let opened ← need (k.openFilesTable.isOpened id) .assertion
  if opened = false then .ok (k.WriteRegister 2 (-1))
  else
    let unixHandle ← need (k.openFilesTable.getUnixHandle id) .outOfBounds
    newChar size
    let k := k.ask (.read unixHandle size.toNat)
    match unix.read unixHandle size.toNat with
    | none => .ok (k.WriteRegister 2 (-1)).V.returnFromSystemCall
    | some kernelBuffer => do
        let r ← k.copyOut virtualAddr kernelBuffer
        if r.2 = false then .ok (r.1.WriteRegister 2 (-1)).returnFromSystemCall
        else
          .ok (r.1.WriteRegister 2 (BitVec.ofNat 32 kernelBuffer.length)).V.returnFromSystemCall

def NachOS_Read (unix : Unix) (others : Others) (k : Kernel) : Except Crash Kernel :=
  let k := k.P others
  let virtualAddr := k.ReadRegister 4
  let size := (k.ReadRegister 5).toInt
  let id := (k.ReadRegister 6).toInt
  if size < 0 then .ok (k.WriteRegister 2 (-1))
  else if size = 0 then .ok (k.WriteRegister 2 0)
  else readFrom unix virtualAddr size id k

/-- The arguments are the same in front of `P`. -/
theorem NachOS_Read_eq (unix : Unix) (others : Others) (k : Kernel) :
    NachOS_Read unix others k =
      if (k.ReadRegister 5).toInt < 0 then .ok ((k.P others).WriteRegister 2 (-1))
      else if (k.ReadRegister 5).toInt = 0 then .ok ((k.P others).WriteRegister 2 0)
      else readFrom unix (k.ReadRegister 4) (k.ReadRegister 5).toInt (k.ReadRegister 6).toInt
        (k.P others) := rfl

/-- `switch (id)` of `NachOS_Write`. -/
def writeTo (unix : Unix) (id size : Int) (buffer : List Byte) (k : Kernel) :
    Except Crash Kernel :=
  if id = ConsoleInput then .ok (k.WriteRegister 2 (-1))
  else if id = ConsoleOutput then
    .ok ((k.ask (.print buffer)).WriteRegister 2 (BitVec.ofInt 32 size))
  else if id = ConsoleError then
    .ok ((k.ask (.printInt (k.ReadRegister 4).toInt)).WriteRegister 2 (BitVec.ofInt 32 size))
  else do
    let opened ← need (k.openFilesTable.isOpened id) .assertion
    if opened = false then .ok (k.WriteRegister 2 (-1))
    else
      let id2 ← need (k.openFilesTable.getUnixHandle id) .outOfBounds
      WriteFile unix id2 buffer size
      .ok ((k.ask (.write id2 buffer)).WriteRegister 2 (BitVec.ofInt 32 id2))

def NachOS_Write (unix : Unix) (others : Others) (k : Kernel) : Except Crash Kernel := do
  let size := (k.ReadRegister 5).toInt
  newChar size
  let id := (k.ReadRegister 6).toInt
  let k := k.P others
  let direc := k.ReadRegister 4
  let r ← k.copyIn direc size.toNat
  match r.2 with
  | none => .ok (r.1.WriteRegister 2 (-1)).V.returnFromSystemCall
  | some buffer => do
      let k ← writeTo unix id size buffer r.1
      .ok k.V.returnFromSystemCall

def NachOS_Close (unix : Unix) (k : Kernel) : Except Crash Kernel := do
  let id := (k.ReadRegister 4).toInt
  let opened ← need (k.openFilesTable.isOpened id) .assertion
  if opened = false then .ok k.returnFromSystemCall
  else
    let unixHandle ← need (k.openFilesTable.getUnixHandle id) .outOfBounds
    let k := k.ask (.close unixHandle)
    Close unix unixHandle
    let closed ← need (k.openFilesTable.Close id) .outOfBounds
    .ok (k.setOpenFilesTable closed.2).returnFromSystemCall

/-- The child gets the table of open files of its parent, a copy of its
address space, and the routine in register 4. -/
def NachOS_Fork (others : Others) (k : Kernel) : Except Crash Kernel := do
  let k := k.P others
  let k := k.setOpenFilesTable k.openFilesTable.addThread
  let child ← need (AddrSpace.copy ⟨k.pageTable⟩ k.MiMapa) .outOfBounds
  let k := k.addChild child.1 child.2 (k.ReadRegister 4)
  .ok k.returnFromSystemCall.V

def AF_INET_NachOS : Word := 0
def SOCK_STREAM_NachOS : Word := 0
def AF_INET : Int := 2
def AF_INET6 : Int := 10
def SOCK_STREAM : Int := 1
def SOCK_DGRAM : Int := 2

def NachOS_Socket (unix : Unix) (others : Others) (k : Kernel) : Except Crash Kernel :=
  let ipv6 := if k.ReadRegister 4 = AF_INET_NachOS then AF_INET else AF_INET6
  let type := if k.ReadRegister 5 = SOCK_STREAM_NachOS then SOCK_STREAM else SOCK_DGRAM
  let k := ((k.setIPv6 (ipv6 = AF_INET6)).P others).ask (.socket ipv6 type)
  let Socket := unix.socket ipv6 type
  let k :=
    if Socket = -1 then k.WriteRegister 2 (-1)
    else (k.WriteRegister 2 (BitVec.ofInt 32 Socket)).setOpenFilesTable
      (k.openFilesTable.Open Socket).2
  .ok k.V.returnFromSystemCall

def NachOS_Connect (unix : Unix) (others : Others) (k : Kernel) : Except Crash Kernel := do
  let port := (k.ReadRegister 6).toInt
  let id := (k.ReadRegister 4).toInt
  let direc := k.ReadRegister 5
  let k := k.P others
  let r ← k.copyAddress direc 16
  let k := r.1
  match r.2 with
  | none => .ok (k.WriteRegister 2 (-1)).V.returnFromSystemCall
  | some buffer =>
      let domain := if k.IPv6 then AF_INET6 else AF_INET
      -- `in6addr_any`, whatever was read
      let address := if k.IPv6 then [] else buffer
      let k := k.ask (.connect id domain port address)
      let st := unix.connect id domain port address
      let k :=
        if st = -1 then k.WriteRegister 2 (-1) else k.WriteRegister 2 (BitVec.ofInt 32 st)
      .ok k.V.returnFromSystemCall

/-! ## A thread at rest -/

/-- A host without files. -/
def noFiles : Unix where
  openRdWr _ := -1
  read _ _ := none
  write _ _ := -1
  close _ := -1
  socket _ _ := -1
  connect _ _ _ _ := -1
  read_le h := by cases h

/-- A thread of one page whose registers are all 0. -/
def idle : Kernel where
  registers _ := 0
  mainMemory _ := 0
  pageTable := [{ virtualPage := 0, physicalPage := 0, valid := true, readOnly := false }]
  openFilesTable := .new
  MiMapa := (BitMap.new NumPhysPages).markBit 0
  IPv6 := false
  acquired := 0
  released := 0
  forked := []
  host := []

/-- Nobody else runs. -/
def alone : Others where
  mainMemory := idle.mainMemory
  openFilesTable := idle.openFilesTable
  MiMapa := idle.MiMapa
  IPv6 := idle.IPv6

/-- A host with one file, of four bytes. -/
def oneFile : Unix where
  openRdWr _ := 5
  read fd nBytes := if fd = 5 then some ([103, 97, 116, 111].take nBytes) else none
  write fd buffer := if fd = 5 then buffer.length else -1
  close fd := if fd = 5 then 0 else -1
  socket _ _ := -1
  connect _ _ _ _ := -1
  read_le h := by
    split at h
    · cases h
      exact List.length_take_le _ _
    · cases h

/-- A thread that has opened the file, with handle 3 and a buffer of four
bytes at address 8 in its registers. -/
def user : Kernel :=
  { idle with
    registers := fun r => if r = 4 then 8 else if r = 5 then 4 else if r = 6 then 3 else 0
    mainMemory := fun p => if p = 8 then 111 else if p = 9 then 115 else if p = 10 then 111 else 0
    openFilesTable := (NachosOpenFilesTable.new.Open 5).2 }

/-- Nobody else runs. -/
def besideUser : Others where
  mainMemory := user.mainMemory
  openFilesTable := user.openFilesTable
  MiMapa := user.MiMapa
  IPv6 := user.IPv6

end Kernel

end DistributedAscii.NachOS
