import DistributedAscii.NachOS.Exception

/-!
# NachOS — the file calls

What a user program may hand to `Open`, `Read`, `Write` and `Close` without
ending the simulation for everybody. The handlers check little of it, so
that the condition is long: `survives_iff` says that it is exact.
-/

namespace DistributedAscii.NachOS

open Lib.Outcome

namespace Kernel

variable {unix : Unix} {others : Others} {k k' : Kernel}

/-- The bytes in user memory from `addr` on. -/
def BytesAt (k : Kernel) (addr : Word) (bytes : List Byte) : Prop :=
  ∀ i < bytes.length, k.byteAt (behind addr i) = bytes[i]?

/-- The string in user memory at `addr`. -/
def StringAt (k : Kernel) (addr : Word) (name : List Byte) : Prop :=
  k.BytesAt addr (name ++ [0]) ∧ ∀ byte ∈ name, byte ≠ 0

/-- The bytes have been stored in user memory from `addr` on, one after the
other: of those that share a place the last one is there, and no other place
has changed. -/
structure Stored (k k' : Kernel) (addr : Word) (bytes : List Byte) : Prop where
  there : ∀ i < bytes.length,
    (∀ j < bytes.length, i < j →
      k.Translate (behind addr j) true ≠ k.Translate (behind addr i) true) →
    k'.byteAt (behind addr i) = bytes[i]?
  elsewhere : ∀ p, (∀ i < bytes.length, k.Translate (behind addr i) true ≠ .ok p) →
    k'.mainMemory p = k.mainMemory p

theorem bytesAt_cons {addr : Word} {byte : Byte} {bytes : List Byte} :
    k.BytesAt addr (byte :: bytes) ↔
      k.byteAt addr = some byte ∧ k.BytesAt (addr + 1) bytes := by
  constructor
  · intro h
    refine ⟨?_, fun i hi => ?_⟩
    · have := h 0 (by simp)
      rwa [behind_zero] at this
    · rw [behind_succ]
      exact h (i + 1) (by simpa using hi)
  · rintro ⟨hfirst, hrest⟩ i hi
    cases i with
    | zero => rwa [behind_zero]
    | succ i =>
        rw [← behind_succ]
        exact hrest i (by simpa using hi)

/-- What is at an address is determined by its length. -/
theorem BytesAt.unique {addr : Word} {bytes bytes' : List Byte} (h : k.BytesAt addr bytes)
    (h' : k.BytesAt addr bytes') (hlength : bytes.length = bytes'.length) : bytes = bytes' := by
  apply List.ext_getElem hlength
  intro i hi hi'
  have hbyte := (h i hi).symm.trans (h' i hi')
  rwa [List.getElem?_eq_getElem hi, List.getElem?_eq_getElem hi', Option.some.injEq] at hbyte

theorem ReadMem_of_byteAt {addr : Word} {c : Byte} (h : k.byteAt addr = some c) :
    k.ReadMem addr = .ok (k, some (c.signExtend 32)) := by
  rw [ReadMem, Machine.ReadMem_of_byteAt h]
  rfl

theorem setWidth_signExtend (c : Byte) : (c.signExtend 32).setWidth 8 = c := by
  apply BitVec.eq_of_getLsbD_eq
  intro i hi
  simp [BitVec.getLsbD_signExtend, hi]
  omega

theorem signExtend_eq_zero {c : Byte} : c.signExtend 32 = 0 ↔ c = 0 := by
  constructor
  · intro h
    rw [← setWidth_signExtend c, h]
    rfl
  · rintro rfl
    rfl

/-! ## The loops over readable memory -/

/-- `copyIn` copies what is there. -/
theorem copyIn_of_inside (direc : Word) (size : Nat)
    (h : ∀ i < size, k.Inside (behind direc i) false) :
    ∃ bytes, k.copyIn direc size = .ok (k, some bytes) ∧ k.BytesAt direc bytes ∧
      bytes.length = size := by
  induction size generalizing direc with
  | zero => exact ⟨[], rfl, fun i hi => by simp at hi, rfl⟩
  | succ size ih =>
      obtain ⟨c, hc⟩ := (h 0 (by omega)).byteAt
      rw [behind_zero] at hc
      obtain ⟨bytes, hcopy, hbytes, hlength⟩ := ih (direc + 1) fun i hi => by
        rw [behind_succ]
        exact h (i + 1) (by omega)
      refine ⟨c :: bytes, ?_, bytesAt_cons.mpr ⟨hc, hbytes⟩, by simp [hlength]⟩
      simp only [copyIn, ReadMem_of_byteAt hc, bind, Except.bind, hcopy, Option.map_some,
        setWidth_signExtend]

/-- `copyOut` stores its bytes. The induction is on the bytes: the first one
stays where it is unless a later one has the same place. -/
theorem copyOut_of_inside (virtualAddr : Word) (bytes : List Byte)
    (h : ∀ i < bytes.length, k.Inside (behind virtualAddr i) true) :
    ∃ k', k.copyOut virtualAddr bytes = .ok (k', true) ∧ k'.host = k.host ∧
      k'.pageTable = k.pageTable ∧ Stored k k' virtualAddr bytes := by
  induction bytes generalizing k virtualAddr with
  | nil =>
      refine ⟨k, rfl, rfl, rfl, fun i hi => ?_, fun p _ => rfl⟩
      exact absurd hi (Nat.not_lt_zero i)
  | cons byte rest ih =>
      have hfirst := h 0 (by simp)
      rw [behind_zero] at hfirst
      obtain ⟨m, p, hp, hm, hregisters, htable, hmemory⟩ := hfirst.WriteMem byte
      have hplace : ∀ addr, m.Translate addr true = k.Translate addr true :=
        fun addr => Machine.Translate_congr htable addr true
      obtain ⟨k', hcopy, hhost, htable', hstored⟩ := ih (k := { k with toMachine := m })
        (virtualAddr + 1) fun i hi => by
          rw [behind_succ]
          obtain ⟨q, hq⟩ := h (i + 1) (by simpa using hi)
          exact ⟨q, (hplace _).trans hq⟩
      refine ⟨k', ?_, hhost, htable'.trans htable, ?_, ?_⟩
      · simpa only [copyOut, WriteMem, hm, bind, Except.bind, if_true] using hcopy
      · intro i hi hlast
        cases i with
        | zero =>
            -- the first byte stays as no later one goes to its place
            have hp' : k'.Translate virtualAddr true = .ok p :=
              (Machine.Translate_congr (htable'.trans htable) _ _).trans hp
            have hkept : k'.mainMemory p = m.mainMemory p := by
              refine hstored.elsewhere p fun j hj hjp => ?_
              rw [behind_succ] at hjp
              refine hlast (j + 1) (by simpa using hj) (Nat.succ_pos j) ?_
              rw [behind_zero, hp]
              exact (hplace _).symm.trans hjp
            rw [behind_zero, Machine.byteAt_of_Translate hp', hkept, hmemory,
              Function.update_self]
            rfl
        | succ i =>
            have hthere := hstored.there i (by simpa using hi) fun j hj hij hsame => by
              rw [behind_succ, behind_succ] at hsame
              refine hlast (j + 1) (by simpa using hj) (by omega) ?_
              exact (hplace _).symm.trans (hsame.trans (hplace _))
            rwa [behind_succ] at hthere
      · intro q hq
        have hkept : k'.mainMemory q = m.mainMemory q := by
          refine hstored.elsewhere q fun j hj hjq => ?_
          rw [behind_succ] at hjq
          exact hq (j + 1) (by simpa using hj) ((hplace _).symm.trans hjq)
        have hne : q ≠ p := by
          rintro rfl
          exact hq 0 (by simp) (by rwa [behind_zero])
        rw [hkept, hmemory, Function.update_of_ne hne]

theorem stringAt_nil {addr : Word} : k.StringAt addr [] ↔ k.byteAt addr = some 0 := by
  simp [StringAt, BytesAt]

theorem stringAt_cons {addr : Word} {byte : Byte} {name : List Byte} :
    k.StringAt addr (byte :: name) ↔
      k.byteAt addr = some byte ∧ byte ≠ 0 ∧ k.StringAt (addr + 1) name := by
  simp only [StringAt, List.cons_append, bytesAt_cons, List.mem_cons, forall_eq_or_imp]
  tauto

theorem StringAt.unique {addr : Word} {name name' : List Byte} (h : k.StringAt addr name)
    (h' : k.StringAt addr name') : name = name' := by
  induction name generalizing addr name' with
  | nil =>
      cases name' with
      | nil => rfl
      | cons byte rest =>
          obtain ⟨hbyte, hne, -⟩ := stringAt_cons.mp h'
          rw [stringAt_nil.mp h, Option.some.injEq] at hbyte
          exact absurd hbyte.symm hne
  | cons byte rest ih =>
      obtain ⟨hbyte, hne, hrest⟩ := stringAt_cons.mp h
      cases name' with
      | nil =>
          rw [stringAt_nil.mp h', Option.some.injEq] at hbyte
          exact absurd hbyte.symm hne
      | cons byte' rest' =>
          obtain ⟨hbyte', -, hrest'⟩ := stringAt_cons.mp h'
          rw [hbyte, Option.some.injEq] at hbyte'
          rw [hbyte', ih hrest hrest']

/-- The name that `open` gets. -/
theorem StringAt.takeWhile {addr : Word} {name : List Byte} (h : k.StringAt addr name) :
    (name ++ [0]).takeWhile (· ≠ 0) = name := by
  rw [List.takeWhile_append_of_pos (by simpa using h.2)]
  simp

/-- As long as the string goes on, the next byte may be read. -/
def ReadableName (k : Kernel) (direc : Word) (room : Nat) : Prop :=
  ∀ i < room, (∀ j < i, ∃ c, k.byteAt (behind direc j) = some c ∧ c ≠ 0) →
    k.Inside (behind direc i) false

theorem ReadableName.tail {direc : Word} {room : Nat} (h : k.ReadableName direc (room + 1))
    {c : Byte} (hc : k.byteAt direc = some c) (hne : c ≠ 0) :
    k.ReadableName (direc + 1) room := by
  intro i hi hstring
  rw [behind_succ]
  refine h (i + 1) (by omega) fun j hj => ?_
  cases j with
  | zero => exact ⟨c, by rwa [behind_zero], hne⟩
  | succ j =>
      rw [← behind_succ]
      exact hstring j (by omega)

/-- `readName` gets the string if there is room for it, and runs out of the
array otherwise. -/
theorem readName_cases {direc : Word} (c : Word) (name : List Byte) {room : Nat}
    (h : k.ReadableName direc room) :
    (∃ string, k.StringAt direc string ∧ string.length < room ∧
        k.readName direc c name room = .ok (k, name ++ (string ++ [0]))) ∨
      (¬(∃ string, k.StringAt direc string ∧ string.length < room) ∧
        ∀ r, k.readName direc c name room ≠ .ok r) := by
  induction room generalizing direc c name with
  | zero =>
      refine .inr ⟨by simp, fun r hr => ?_⟩
      obtain ⟨-, -, hcrash⟩ := bind_eq_ok.mp hr
      cases hcrash
  | succ room ih =>
      obtain ⟨byte, hbyte⟩ := (h 0 (by omega) (by simp)).byteAt
      rw [behind_zero] at hbyte
      by_cases hzero : byte = 0
      · subst hzero
        refine .inl ⟨[], stringAt_nil.mpr hbyte, by simp, ?_⟩
        simp [readName, ReadMem_of_byteAt hbyte, bind, Except.bind]
      · have hstep : k.readName direc c name (room + 1) =
            k.readName (direc + 1) (byte.signExtend 32) (name ++ [byte]) room := by
          have hne : byte.signExtend 32 ≠ 0 := mt signExtend_eq_zero.mp hzero
          simp only [readName, ReadMem_of_byteAt hbyte, bind, Except.bind, Option.getD_some,
            if_neg hne, setWidth_signExtend]
        rw [hstep]
        obtain ⟨string, hstring, hlength, hread⟩ | ⟨hnone, hcrash⟩ :=
          ih (byte.signExtend 32) (name ++ [byte]) (h.tail hbyte hzero)
        · refine .inl ⟨byte :: string, stringAt_cons.mpr ⟨hbyte, hzero, hstring⟩,
            by simpa using hlength, ?_⟩
          rw [hread]
          simp
        · refine .inr ⟨?_, hcrash⟩
          rintro ⟨string, hstring, hlength⟩
          cases string with
          | nil =>
              rw [stringAt_nil, hbyte, Option.some.injEq] at hstring
              exact hzero hstring
          | cons first rest =>
              obtain ⟨-, -, hrest⟩ := stringAt_cons.mp hstring
              exact hnone ⟨rest, hrest, by simpa using hlength⟩

/-! ## The calls -/

/-- The system calls on files. -/
inductive FileCall where
  | open
  | read
  | write
  | close
deriving DecidableEq, Repr

namespace FileCall

def run (unix : Unix) (others : Others) : FileCall → Kernel → Except Crash Kernel
  | .open => NachOS_Open unix
  | .read => NachOS_Read unix others
  | .write => NachOS_Write unix others
  | .close => NachOS_Close unix

/-- The addresses of the call are inside the valid pages of the caller. -/
def ValidPages (k : Kernel) : FileCall → Prop
  | .open => k.ReadableName (k.ReadRegister 4) 128
  | .read => ∀ i : Nat, i < (k.ReadRegister 5).toInt → k.Inside (behind (k.ReadRegister 4) i) true
  | .write =>
      ∀ i : Nat, i < (k.ReadRegister 5).toInt → k.Inside (behind (k.ReadRegister 4) i) false
  | .close => True

/-- The call did what it is for. `Open` has its handle in register 2, `Read`
the number of the bytes that the host delivered and that are in user memory
now, `Write` the size for the console and the Unix handle for a file; `Close`
has no result. -/
def Performed (unix : Unix) (others : Others) (k k' : Kernel) : FileCall → Prop
  | .open => ∃ name h, k.StringAt (k.ReadRegister 4) name ∧
      k'.host = k.host ++ [.open name] ∧ k'.ReadRegister 2 = BitVec.ofInt 32 h ∧
      k'.openFilesTable.isOpened h = some true ∧
      k'.openFilesTable.getUnixHandle h = some (unix.openRdWr name)
  | .read =>
      let table := (k.P others).openFilesTable
      let size := (k.ReadRegister 5).toInt
      (size = 0 ∧ k'.ReadRegister 2 = 0) ∨
        ∃ u bytes, table.getUnixHandle (k.ReadRegister 6).toInt = some u ∧
          unix.read u size.toNat = some bytes ∧ k'.host = k.host ++ [.read u size.toNat] ∧
          Stored (k.P others) k' (k.ReadRegister 4) bytes ∧
          k'.ReadRegister 2 = BitVec.ofNat 32 bytes.length
  | .write =>
      let table := (k.P others).openFilesTable
      let id := (k.ReadRegister 6).toInt
      ∃ buffer, (k.P others).BytesAt (k.ReadRegister 4) buffer ∧
        buffer.length = (k.ReadRegister 5).toInt ∧
        ((id = ConsoleOutput ∧ k'.host = k.host ++ [.print buffer] ∧
            k'.ReadRegister 2 = k.ReadRegister 5) ∨
          (id = ConsoleError ∧ k'.host = k.host ++ [.printInt (k.ReadRegister 4).toInt] ∧
            k'.ReadRegister 2 = k.ReadRegister 5) ∨
          ∃ u, table.getUnixHandle id = some u ∧ k'.host = k.host ++ [.write u buffer] ∧
            k'.ReadRegister 2 = BitVec.ofInt 32 u)
  | .close =>
      let id := (k.ReadRegister 4).toInt
      k'.openFilesTable.isOpened id = some false ∧
        (k.openFilesTable.isOpened id = some true →
          ∃ u, k.openFilesTable.getUnixHandle id = some u ∧ k'.host = k.host ++ [.close u])

/-- The call comes back, performed or with -1. -/
def Survives (unix : Unix) (others : Others) (k : Kernel) (call : FileCall) : Prop :=
  ∃ k', call.run unix others k = .ok k' ∧
    (k'.ReadRegister 2 = -1 ∨ call.Performed unix others k k')

/-- What the handlers take for granted. A name has at most 126 letters and is
that of a file; a handle is one of the table; the host writes all it is asked
to, closes what it is asked to, and the descriptor of a file that is closed
is small enough to be a handle. -/
def Harmless (unix : Unix) (others : Others) (k : Kernel) : FileCall → Prop
  | .open => ∃ name, k.StringAt (k.ReadRegister 4) name ∧ name.length ≤ 126 ∧
      0 ≤ unix.openRdWr name
  | .read =>
      (k.ReadRegister 5).toInt ≤ 0 ∨ NachosOpenFilesTable.InTable (k.ReadRegister 6).toInt
  | .write =>
      let table := (k.P others).openFilesTable
      let size := (k.ReadRegister 5).toInt
      let id := (k.ReadRegister 6).toInt
      0 ≤ size ∧ (id = ConsoleInput ∨ id = ConsoleOutput ∨ id = ConsoleError ∨
        NachosOpenFilesTable.InTable id ∧ (table.isOpened id = some true →
          ∀ u buffer, table.getUnixHandle id = some u →
            (k.P others).BytesAt (k.ReadRegister 4) buffer → buffer.length = size →
            unix.write u buffer = size))
  | .close =>
      let id := (k.ReadRegister 4).toInt
      NachosOpenFilesTable.InTable id ∧ (k.openFilesTable.isOpened id = some true →
        ∀ u, k.openFilesTable.getUnixHandle id = some u →
          0 ≤ unix.close u ∧ NachosOpenFilesTable.InTable u)

/-! ## Which calls survive -/

@[simp] theorem result_returnFromSystemCall (k : Kernel) (value : Word) :
    (k.WriteRegister 2 value).returnFromSystemCall.ReadRegister 2 = value := rfl

theorem open_survives_iff (hvalid : ValidPages k .open) :
    Survives unix others k .open ↔ Harmless unix others k .open := by
  constructor
  · rintro ⟨k', hrun, -⟩
    obtain ⟨r, hr, hrun⟩ := bind_eq_ok.mp hrun
    obtain ⟨name, hname, -, hread⟩ | ⟨-, hcrash⟩ :=
      readName_cases 1 [] hvalid
    · rw [hread, List.nil_append, Except.ok.injEq] at hr
      subst hr
      -- the name fits, and the host has opened the file
      obtain ⟨_, hroom, hrun⟩ := bind_eq_ok.mp hrun
      obtain ⟨fd, hopen, -⟩ := bind_eq_ok.mp hrun
      obtain ⟨_, hfd, -⟩ := bind_eq_ok.mp hopen
      rw [check_eq_ok] at hroom hfd
      rw [List.length_append, List.length_singleton] at hroom
      rw [hname.takeWhile] at hfd
      exact ⟨name, hname, by omega, by simpa using hfd⟩
    · exact absurd hr (hcrash r)
  · rintro ⟨name, hname, hlength, hfd⟩
    obtain ⟨name', hname', -, hread⟩ | ⟨hnone, -⟩ :=
      readName_cases 1 [] hvalid
    case inr => exact absurd ⟨name, hname, by omega⟩ hnone
    case inl =>
      obtain rfl := hname.unique hname'
      have hne : unix.openRdWr name ≠ -1 := by omega
      have hroom : (name ++ [0]).length < 128 := by
        rw [List.length_append, List.length_singleton]
        omega
      have hrun : NachOS_Open unix k = .ok (((k.ask (.open name)).setOpenFilesTable
          (k.openFilesTable.Open (unix.openRdWr name)).2).WriteRegister 2
            (BitVec.ofInt 32
              (k.openFilesTable.Open (unix.openRdWr name)).1)).returnFromSystemCall := by
        simp only [NachOS_Open, hread, List.nil_append, bind, Except.bind, check, if_pos hroom,
          hname.takeWhile, OpenForReadWrite, hfd, or_true, if_true, if_neg hne]
        rfl
      refine ⟨_, hrun, ?_⟩
      rw [result_returnFromSystemCall]
      obtain ⟨i, hi, -, hopen⟩ | ⟨hopen, -⟩ := k.openFilesTable.Open_cases (unix.openRdWr name)
      · rw [hopen]
        refine .inr ⟨name, i, hname, rfl, rfl, ?_, ?_⟩
        · show ((k.openFilesTable.markBit i).setEntry i (unix.openRdWr name)).isOpened i = _
          simp [NachosOpenFilesTable.isOpened_of_lt _ hi,
            NachosOpenFilesTable.bit_markBit _ hi, hi, hne]
        · show ((k.openFilesTable.markBit i).setEntry i (unix.openRdWr name)).getUnixHandle i = _
          simp [NachosOpenFilesTable.getUnixHandle_of_lt _ hi, hi]
      · rw [hopen]
        exact .inl rfl

/-- Behind the tests of `size` the handle has to be one of the table. -/
theorem readFrom_survives (unix : Unix) {virtualAddr : Word} {size id : Int}
    (hvalid : ∀ i : Nat, i < size → k.Inside (behind virtualAddr i) true) (hsize : 0 < size)
    (hid : NachosOpenFilesTable.InTable id) :
    ∃ k', readFrom unix virtualAddr size id k = .ok k' ∧
      (k'.ReadRegister 2 = -1 ∨ ∃ u bytes, k.openFilesTable.getUnixHandle id = some u ∧
        unix.read u size.toNat = some bytes ∧ k'.host = k.host ++ [.read u size.toNat] ∧
        Stored k k' virtualAddr bytes ∧ k'.ReadRegister 2 = BitVec.ofNat 32 bytes.length) := by
  have hunix : k.openFilesTable.getUnixHandle id = some (k.openFilesTable.entry id.toNat) :=
    if_pos hid
  generalize k.openFilesTable.entry id.toNat = u at hunix
  rcases k.openFilesTable.isOpened_cases hid with hopened | hopened
  · refine ⟨k.WriteRegister 2 (-1), ?_, .inl rfl⟩
    simp only [readFrom, hopened, need, bind, Except.bind, if_true]
  · cases hread : unix.read u size.toNat with
    | none =>
        refine ⟨((k.ask (.read u size.toNat)).WriteRegister 2 (-1)).V.returnFromSystemCall,
          ?_, .inl rfl⟩
        simp only [readFrom, hopened, hunix, hread, need, newChar, check, if_pos hsize.le,
          bind, Except.bind, Bool.true_eq_false, if_false]
    | some bytes =>
        have hlength := unix.read_le hread
        obtain ⟨k₂, hcopy, hhost, -, hstored⟩ := copyOut_of_inside
          (k := k.ask (.read u size.toNat)) virtualAddr bytes
          fun i hi => hvalid i (by omega)
        refine ⟨(k₂.WriteRegister 2
          (BitVec.ofNat 32 bytes.length)).V.returnFromSystemCall, ?_,
          .inr ⟨u, bytes, hunix, hread, hhost, ⟨hstored.there, hstored.elsewhere⟩, rfl⟩⟩
        simp only [readFrom, hopened, hunix, hread, need, newChar, check, if_pos hsize.le,
          bind, Except.bind, hcopy, Bool.true_eq_false, if_false]

theorem read_survives_iff (hvalid : ValidPages k .read) :
    Survives unix others k .read ↔ Harmless unix others k .read := by
  simp only [Survives, Harmless, Performed, run, NachOS_Read_eq]
  simp only [ValidPages] at hvalid
  generalize (k.ReadRegister 5).toInt = size at hvalid ⊢
  generalize (k.ReadRegister 6).toInt = id
  rcases lt_trichotomy size 0 with hneg | rfl | hpos
  · rw [if_pos hneg]
    exact iff_of_true ⟨_, rfl, .inl rfl⟩ (.inl hneg.le)
  · rw [if_neg (lt_irrefl 0), if_pos rfl]
    exact iff_of_true ⟨_, rfl, .inr (.inl ⟨rfl, rfl⟩)⟩ (.inl le_rfl)
  · rw [if_neg (not_lt.mpr hpos.le), if_neg hpos.ne']
    constructor
    · rintro ⟨k', hrun, -⟩
      obtain ⟨opened, hopened, -⟩ := bind_eq_ok.mp hrun
      rw [need_eq_ok] at hopened
      by_contra hbad
      have hid := (not_or.mp hbad).2
      rw [NachosOpenFilesTable.isOpened_eq_none.mpr hid] at hopened
      cases hopened
    · intro hharmless
      have hid := hharmless.resolve_left (not_le.mpr hpos)
      obtain ⟨k', hrun, hresult⟩ := readFrom_survives (k := k.P others) unix hvalid hpos hid
      exact ⟨k', hrun, hresult.imp_right .inr⟩

/-- The last step of a write: the buffer goes to the console, or to the host
if the handle is one of the table. -/
theorem writeTo_survives_iff (unix : Unix) (id size : Int) (buffer : List Byte) :
    (∃ k', writeTo unix id size buffer k = .ok k' ∧
      (k'.ReadRegister 2 = -1 ∨
        (id = ConsoleOutput ∧ k'.host = k.host ++ [.print buffer] ∧
          k'.ReadRegister 2 = BitVec.ofInt 32 size) ∨
        (id = ConsoleError ∧ k'.host = k.host ++ [.printInt (k.ReadRegister 4).toInt] ∧
          k'.ReadRegister 2 = BitVec.ofInt 32 size) ∨
        ∃ u, k.openFilesTable.getUnixHandle id = some u ∧
          k'.host = k.host ++ [.write u buffer] ∧ k'.ReadRegister 2 = BitVec.ofInt 32 u)) ↔
      (id = ConsoleInput ∨ id = ConsoleOutput ∨ id = ConsoleError ∨
        NachosOpenFilesTable.InTable id ∧ (k.openFilesTable.isOpened id = some true →
          ∀ u, k.openFilesTable.getUnixHandle id = some u → unix.write u buffer = size)) := by
  by_cases hinput : id = ConsoleInput
  · exact iff_of_true ⟨_, if_pos hinput, .inl rfl⟩ (.inl hinput)
  by_cases houtput : id = ConsoleOutput
  · have hrun : writeTo unix id size buffer k =
        .ok ((k.ask (.print buffer)).WriteRegister 2 (BitVec.ofInt 32 size)) := by
      rw [writeTo, if_neg hinput, if_pos houtput]
    exact iff_of_true ⟨_, hrun, .inr (.inl ⟨houtput, rfl, rfl⟩)⟩ (.inr (.inl houtput))
  by_cases herror : id = ConsoleError
  · have hrun : writeTo unix id size buffer k =
        .ok ((k.ask (.printInt (k.ReadRegister 4).toInt)).WriteRegister 2
          (BitVec.ofInt 32 size)) := by
      rw [writeTo, if_neg hinput, if_neg houtput, if_pos herror]
    exact iff_of_true ⟨_, hrun, .inr (.inr (.inl ⟨herror, rfl, rfl⟩))⟩ (.inr (.inr (.inl herror)))
  simp only [writeTo, hinput, houtput, herror, if_false, false_or, false_and]
  constructor
  · rintro ⟨k', hrun, -⟩
    obtain ⟨opened, hopened, hrun⟩ := bind_eq_ok.mp hrun
    rw [need_eq_ok] at hopened
    refine ⟨by_contra fun hid => ?_, fun hopen u hu => ?_⟩
    · rw [NachosOpenFilesTable.isOpened_eq_none.mpr hid] at hopened
      cases hopened
    · rw [hopened, Option.some.injEq] at hopen
      subst hopen
      obtain ⟨id2, hid2, hrun⟩ := bind_eq_ok.mp hrun
      obtain ⟨_, hwrite, -⟩ := bind_eq_ok.mp hrun
      rw [need_eq_ok, hu, Option.some.injEq] at hid2
      rw [WriteFile, check_eq_ok] at hwrite
      rwa [hid2]
  · rintro ⟨hid, hwrites⟩
    have hunix : k.openFilesTable.getUnixHandle id = some (k.openFilesTable.entry id.toNat) :=
      if_pos hid
    generalize k.openFilesTable.entry id.toNat = u at hunix
    rcases k.openFilesTable.isOpened_cases hid with hopened | hopened
    · refine ⟨k.WriteRegister 2 (-1), ?_, .inl rfl⟩
      simp only [hopened, need, bind, Except.bind, if_true]
    · have hwrite := hwrites hopened u hunix
      refine ⟨(k.ask (.write u buffer)).WriteRegister 2 (BitVec.ofInt 32 u), ?_,
        .inr ⟨u, hunix, rfl, rfl⟩⟩
      simp only [hopened, need, hunix, WriteFile, check, if_pos hwrite, bind, Except.bind,
        Bool.true_eq_false, if_false]

theorem write_survives_iff (hvalid : ValidPages k .write) :
    Survives unix others k .write ↔ Harmless unix others k .write := by
  simp only [Survives, Harmless, Performed, run]
  simp only [ValidPages] at hvalid
  by_cases hsize : 0 ≤ (k.ReadRegister 5).toInt
  case neg =>
    refine iff_of_false ?_ fun h => hsize h.1
    rintro ⟨k', hrun, -⟩
    obtain ⟨_, halloc, -⟩ := bind_eq_ok.mp hrun
    rw [newChar, check_eq_ok] at halloc
    exact hsize halloc
  case pos =>
    obtain ⟨buffer, hcopy, hbuffer, hlength⟩ := copyIn_of_inside (k := k.P others)
      (k.ReadRegister 4) (k.ReadRegister 5).toInt.toNat
      fun i hi => hvalid i (by omega)
    have hlength' : (buffer.length : Int) = (k.ReadRegister 5).toInt := by omega
    have hrun : ∀ k', NachOS_Write unix others k = .ok k' ↔
        ∃ k₁, writeTo unix (k.ReadRegister 6).toInt (k.ReadRegister 5).toInt buffer
          (k.P others) = .ok k₁ ∧ k₁.V.returnFromSystemCall = k' := by
      intro k'
      simp only [NachOS_Write, newChar, check, if_pos hsize, ReadRegister_P, hcopy, bind_eq_ok,
        Except.ok.injEq, exists_eq_left', true_and, exists_const]
    -- what is at the address is what the handler has copied
    have hunique : ∀ bytes, (k.P others).BytesAt (k.ReadRegister 4) bytes →
        (bytes.length : Int) = (k.ReadRegister 5).toInt → bytes = buffer :=
      fun bytes hbytes hlen => hbytes.unique hbuffer (by omega)
    have hlast := writeTo_survives_iff (k := k.P others) unix (k.ReadRegister 6).toInt
      (k.ReadRegister 5).toInt buffer
    rw [BitVec.ofInt_toInt] at hlast
    simp only [hrun]
    constructor
    · rintro ⟨k', ⟨k₁, hwrite, rfl⟩, hresult⟩
      have hmeets := hlast.mp ⟨k₁, hwrite, hresult.imp_right ?_⟩
      · refine ⟨hsize, hmeets.imp_right <| .imp_right <| .imp_right fun h => ⟨h.1, ?_⟩⟩
        intro hopen u bytes hu hbytes hlen
        rw [hunique bytes hbytes hlen]
        exact h.2 hopen u hu
      · rintro ⟨bytes, hbytes, hlen, hhost⟩
        rw [hunique bytes hbytes hlen] at hhost
        exact hhost
    · rintro ⟨-, hmeets⟩
      obtain ⟨k₁, hwrite, hresult⟩ := hlast.mpr <|
        hmeets.imp_right <| .imp_right <| .imp_right fun h =>
          ⟨h.1, fun hopen u hu => h.2 hopen u buffer hu hbuffer hlength'⟩
      exact ⟨_, ⟨k₁, hwrite, rfl⟩, hresult.imp_right fun h => ⟨buffer, hbuffer, hlength', h⟩⟩

theorem close_survives_iff : Survives unix others k .close ↔ Harmless unix others k .close := by
  simp only [Survives, Harmless, Performed, run, NachOS_Close]
  generalize (k.ReadRegister 4).toInt = id
  by_cases hid : NachosOpenFilesTable.InTable id
  case neg =>
    refine iff_of_false ?_ fun h => hid h.1
    rintro ⟨k', hrun, -⟩
    obtain ⟨opened, hopened, -⟩ := bind_eq_ok.mp hrun
    rw [need_eq_ok, NachosOpenFilesTable.isOpened_eq_none.mpr hid] at hopened
    cases hopened
  case pos =>
    obtain ⟨h, rfl⟩ := Int.eq_ofNat_of_zero_le hid.1
    have hlt : h < MAX_OPEN_FILES := by exact_mod_cast hid.2
    have hclose := k.openFilesTable.Close_eq hlt
    simp only [hid, true_and, NachosOpenFilesTable.getUnixHandle_of_lt k.openFilesTable hlt,
      Option.some.injEq, forall_eq', exists_eq_left']
    generalize k.openFilesTable.entry h = u at hclose
    rcases k.openFilesTable.isOpened_cases hid with hopened | hopened
    · -- a handle that is not open is left alone
      simp only [hopened]
      refine iff_of_true ⟨k.returnFromSystemCall, ?_, .inr ⟨hopened, by simp⟩⟩ (by simp)
      simp only [need, bind, Except.bind, if_true]
    · rw [hopened, if_pos rfl] at hclose
      simp only [hopened, forall_const]
      constructor
      · rintro ⟨k', hrun, -⟩
        simp only [need, bind_eq_ok, Except.ok.injEq, exists_eq_left', Bool.true_eq_false,
          if_false] at hrun
        obtain ⟨_, hunix, closed, hclosed, -⟩ := hrun
        rw [Close, check_eq_ok] at hunix
        refine ⟨hunix, by_contra fun hout => ?_⟩
        have hnone : k.openFilesTable.Close h = none := by rw [hclose, if_neg hout]
        have hclosed' : need (k.openFilesTable.Close h) Crash.outOfBounds =
          .ok closed := hclosed
        rw [need_eq_ok, hnone] at hclosed'
        cases hclosed'
      · rintro ⟨hunix, hin⟩
        rw [if_pos hin] at hclose
        refine ⟨((k.ask (.close u)).setOpenFilesTable ((k.openFilesTable.clearBit h).setEntry
          u.toNat (-1))).returnFromSystemCall, ?_, .inr ⟨?_, rfl⟩⟩
        · have hclose' : (k.ask (.close u)).openFilesTable.Close h = _ := hclose
          simp only [need, bind, Except.bind, Close, check, if_pos hunix, hclose',
            Bool.true_eq_false, if_false]
        · show ((k.openFilesTable.clearBit h).setEntry u.toNat (-1)).isOpened h = _
          simp [NachosOpenFilesTable.isOpened_of_lt _ hlt,
            NachosOpenFilesTable.bit_clearBit _ hlt]

/-- **A file call leaves the kernel running** exactly if its arguments, and
the answers of the host, are what the handler takes for granted. -/
theorem survives_iff (call : FileCall) (unix : Unix) (others : Others) (k : Kernel)
    (hvalid : call.ValidPages k.trap) :
    call.Survives unix others k.trap ↔ call.Harmless unix others k.trap := by
  cases call with
  | «open» => exact open_survives_iff hvalid
  | read => exact read_survives_iff hvalid
  | write => exact write_survives_iff hvalid
  | close => exact close_survives_iff

/-- Four bytes are read from a file that is open, or written to it. -/
theorem survives_user :
    read.Survives oneFile besideUser user.trap ∧ write.Survives oneFile besideUser user.trap := by
  have hsize : (user.trap.ReadRegister 5).toInt = 4 := by decide
  have hinside : ∀ (writing : Bool) (i : Nat), (i : Int) < (user.trap.ReadRegister 5).toInt →
      user.trap.Inside (behind (user.trap.ReadRegister 4) i) writing := by
    intro writing i hi
    rw [hsize] at hi
    obtain ⟨j, rfl⟩ : ∃ j : Fin 4, i = j := ⟨⟨i, by omega⟩, rfl⟩
    exact ⟨8 + j, by revert writing j; decide⟩
  have hhandle : (user.trap.P besideUser).openFilesTable.getUnixHandle
      (user.trap.ReadRegister 6).toInt = some 5 := by decide +kernel
  refine ⟨(survives_iff .read oneFile besideUser _ (hinside true)).mpr (.inr (by decide)),
    (survives_iff .write oneFile besideUser _ (hinside false)).mpr ⟨by decide, ?_⟩⟩
  refine .inr (.inr (.inr ⟨by decide, fun _ u buffer hu _ hlength => ?_⟩))
  rw [hhandle, Option.some.injEq] at hu
  subst hu
  exact hlength

/-- Handle 100 fails the assertion of `Test`. -/
theorem close_not_survives :
    close.ValidPages (idle.WriteRegister 4 100).trap ∧
      ¬close.Survives noFiles alone (idle.WriteRegister 4 100).trap := by
  refine ⟨trivial, ?_⟩
  rintro ⟨k', hrun, -⟩
  have hcrash : close.run noFiles alone (idle.WriteRegister 4 100).trap =
    .error .assertion := rfl
  rw [hcrash] at hrun
  cases hrun

end FileCall

end Kernel

end DistributedAscii.NachOS
