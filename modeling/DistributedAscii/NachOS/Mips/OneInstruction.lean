import DistributedAscii.Lib.Words
import DistributedAscii.NachOS.Mips.Decode

/-!
# NachOS — one instruction of a user program

`Machine::OneInstruction` of `machine/mipssim.cc` with the accesses to
memory of two and four bytes of `machine/translate.cc`, for a machine with a
page table. An exception goes to the kernel with the machine as
`RaiseException` leaves it for the handler.
-/

namespace DistributedAscii.NachOS

namespace Mips

def HiReg : Nat := 32
def LoReg : Nat := 33
def R31 : Nat := 31
def SIGN_BIT : Word := 0x80000000
def MemorySize : Nat := NumPhysPages * PageSize

/-- The exceptions of a user program. -/
inductive Exception where
  | access (which : ExceptionType)
  | OverflowException
  | IllegalInstrException
  | SyscallException
deriving DecidableEq, Repr

/-- What keeps an instruction from being executed: `RaiseException`, with the
machine at that point, or the end of the simulator itself. -/
inductive Stop where
  | raise (m : Machine) (which : Exception) (badVAddr : Word)
  | abort

/-- `Translate` for an access of `size` bytes. -/
def Translate (m : Machine) (virtAddr : Word) (size : Nat) (writing : Bool) : Except Stop Nat :=
  if size = 4 ∧ virtAddr &&& 0x3 ≠ 0 ∨ size = 2 ∧ virtAddr &&& 0x1 ≠ 0 then
    .error (.raise m (.access .AddressErrorException) virtAddr)
  else
    match m.Translate virtAddr writing with
    | .error which => .error (.raise m (.access which) virtAddr)
    | .ok physAddr => if physAddr + size ≤ MemorySize then .ok physAddr else .error .abort

/-- The cases of a read, with the host's sign for a `char`. -/
def ReadMem (m : Machine) (addr : Word) (size : Nat) : Except Stop Word := do
  let physicalAddress ← Translate m addr size false
  let byte := fun i => m.mainMemory (physicalAddress + i)
  match size with
  | 1 => .ok ((byte 0).signExtend 32)
  | 2 => .ok (Lib.Words.ofBytes (byte 0) (byte 1) 0 0)
  | 4 => .ok (Lib.Words.ofBytes (byte 0) (byte 1) (byte 2) (byte 3))
  | _ => .error .abort

/-- The low `size` bytes of `value`. -/
def WriteMem (m : Machine) (addr : Word) (size : Nat) (value : Word) : Except Stop Machine := do
  let physicalAddress ← Translate m addr size true
  if size = 1 ∨ size = 2 ∨ size = 4 then
    .ok { m with
      mainMemory := fun p =>
        if physicalAddress ≤ p ∧ p < physicalAddress + size then
          (Lib.Words.bytesOf value).getD (p - physicalAddress) 0
        else m.mainMemory p }
  else .error .abort

/-! ## Multiplication -/

/-- The variables of the loop of `Mult`. -/
structure Product where
  a : Word
  bHi : Word
  bLo : Word
  hi : Word
  lo : Word

/-- The loop of `Mult` with `n` rounds left. -/
def multLoop (p : Product) : Nat → Product
  | 0 => p
  | n + 1 =>
      let added := p.a &&& 1 ≠ 0
      let lo := if added then p.lo + p.bLo else p.lo
      let hi := if added then (if lo < p.bLo then p.hi + 1 else p.hi) + p.bHi else p.hi
      if added ∧ p.a &&& 0xfffffffe = 0 then { p with hi, lo }
      else
        multLoop
          { a := p.a.sshiftRight 1
            bHi := if p.bLo &&& 0x80000000 ≠ 0 then p.bHi <<< 1 ||| (1 : Word) else p.bHi <<< 1
            bLo := p.bLo <<< 1
            hi
            lo } n

/-- The new `Hi` and `Lo`. -/
def Mult (a b : Word) (signedArith : Bool) : Word × Word :=
  if a = 0 ∨ b = 0 then (0, 0)
  else
    let negative := xor (signedArith && decide (a.toInt < 0)) (signedArith && decide (b.toInt < 0))
    let a := if signedArith && decide (a.toInt < 0) then -a else a
    let b := if signedArith && decide (b.toInt < 0) then -b else b
    let p := multLoop { a, bHi := 0, bLo := b, hi := 0, lo := 0 } 32
    if negative then
      let lo := ~~~p.lo + 1
      (if lo = 0 then ~~~p.hi + 1 else ~~~p.hi, lo)
    else (p.hi, p.lo)

/-! ## Execution -/

/-- What an instruction that is executed leaves for the end of
`OneInstruction`. -/
structure Effect where
  machine : Machine
  pcAfter : Word
  nextLoadReg : Word := 0
  nextLoadValue : Word := 0

/-- `IndexToAddr`. -/
def IndexToAddr (x : Word) : Word :=
  x <<< 2

/-- The two loads of a word that need not be aligned: only the first of their
four cases gets past the assertion. -/
def loadUnaligned (m : Machine) (instr : Instruction) (addr : Word)
    (merge : Word → Word → Word) : Except Stop (Word × Word) :=
  if addr &&& 0x3 ≠ 0 then .error .abort
  else do
    let value ← ReadMem m addr 4
    let old := if m.ReadRegister LoadReg = BitVec.ofNat 32 instr.rt then m.ReadRegister LoadValueReg
      else m.ReadRegister instr.rt
    .ok (BitVec.ofNat 32 instr.rt, merge old value)

def storeUnaligned (m : Machine) (instr : Instruction) (addr : Word)
    (merge : Word → Word → Word) : Except Stop Machine :=
  if addr &&& 0x3 ≠ 0 then .error .abort
  else do
    let value ← ReadMem m (addr &&& ~~~0x3) 4
    WriteMem m (addr &&& ~~~0x3) 4 (merge value (m.ReadRegister instr.rt))

open OpCode in
/-- The switch of `OneInstruction`. -/
def Execute (m : Machine) (instr : Instruction) : Except Stop Effect :=
  let rs := m.ReadRegister instr.rs
  let rt := m.ReadRegister instr.rt
  let extra := instr.extra
  let addr := rs + extra
  let link := m.ReadRegister NextPCReg + 4
  let target := m.ReadRegister NextPCReg + IndexToAddr extra
  let put := fun (r : Nat) (value : Word) =>
    Except.ok { machine := m.WriteRegister r value, pcAfter := link }
  let hiLo := fun (hi lo : Word) =>
    Except.ok { machine := (m.WriteRegister HiReg hi).WriteRegister LoReg lo, pcAfter := link }
  let branch := fun (taken : Bool) =>
    Except.ok { machine := m, pcAfter := if taken then target else link }
  let load := fun (value : Word) =>
    Except.ok { machine := m, pcAfter := link, nextLoadReg := BitVec.ofNat 32 instr.rt,
                nextLoadValue := value }
  let stored := fun (m : Machine) => { machine := m, pcAfter := link }
  match instr.opCode with
  | OP_ADD =>
      let sum := rs + rt
      if (rs ^^^ rt) &&& SIGN_BIT = 0 ∧ (rs ^^^ sum) &&& SIGN_BIT ≠ 0 then
        .error (.raise m .OverflowException 0)
      else put instr.rd sum
  | OP_ADDI =>
      let sum := rs + extra
      if (rs ^^^ extra) &&& SIGN_BIT = 0 ∧ (extra ^^^ sum) &&& SIGN_BIT ≠ 0 then
        .error (.raise m .OverflowException 0)
      else put instr.rt sum
  | OP_ADDIU => put instr.rt (rs + extra)
  | OP_ADDU => put instr.rd (rs + rt)
  | OP_AND => put instr.rd (rs &&& rt)
  | OP_ANDI => put instr.rt (rs &&& (extra &&& 0xffff))
  | OP_BEQ => branch (rs = rt)
  | OP_BGEZAL =>
      let m := m.WriteRegister R31 link
      .ok { machine := m
            pcAfter := if m.ReadRegister instr.rs &&& SIGN_BIT = 0 then target else link }
  | OP_BGEZ => branch (rs &&& SIGN_BIT = 0)
  | OP_BGTZ => branch (0 < rs.toInt)
  | OP_BLEZ => branch (rs.toInt ≤ 0)
  | OP_BLTZAL =>
      let m := m.WriteRegister R31 link
      .ok { machine := m
            pcAfter := if m.ReadRegister instr.rs &&& SIGN_BIT ≠ 0 then target else link }
  | OP_BLTZ => branch (rs &&& SIGN_BIT ≠ 0)
  | OP_BNE => branch (rs ≠ rt)
  | OP_DIV =>
      if rt = 0 then hiLo 0 0
      -- the quotient is no `int`
      else if rs = SIGN_BIT ∧ rt = -1 then .error .abort
      else hiLo (.ofInt 32 (rs.toInt.tmod rt.toInt)) (.ofInt 32 (rs.toInt.tdiv rt.toInt))
  | OP_DIVU => if rt = 0 then hiLo 0 0 else hiLo (rs % rt) (rs / rt)
  | OP_JAL =>
      .ok { machine := m.WriteRegister R31 link
            pcAfter := link &&& 0xf0000000 ||| IndexToAddr extra }
  | OP_J => .ok { machine := m, pcAfter := link &&& 0xf0000000 ||| IndexToAddr extra }
  | OP_JALR =>
      let m := m.WriteRegister instr.rd link
      .ok { machine := m, pcAfter := m.ReadRegister instr.rs }
  | OP_JR => .ok { machine := m, pcAfter := rs }
  | OP_LB => do
      let value ← ReadMem m addr 1
      load (if value &&& 0x80 ≠ 0 then value ||| 0xffffff00 else value &&& 0xff)
  | OP_LBU => do
      let value ← ReadMem m addr 1
      load (value &&& 0xff)
  | OP_LH =>
      if addr &&& 0x1 ≠ 0 then .error (.raise m (.access .AddressErrorException) addr)
      else do
        let value ← ReadMem m addr 2
        load (if value &&& 0x8000 ≠ 0 then value ||| 0xffff0000 else value &&& 0xffff)
  | OP_LHU =>
      if addr &&& 0x1 ≠ 0 then .error (.raise m (.access .AddressErrorException) addr)
      else do
        let value ← ReadMem m addr 2
        load (value &&& 0xffff)
  | OP_LUI => put instr.rt (extra <<< 16)
  | OP_LW =>
      if addr &&& 0x3 ≠ 0 then .error (.raise m (.access .AddressErrorException) addr)
      else do
        let value ← ReadMem m addr 4
        load value
  | OP_LWL => do
      let (nextLoadReg, nextLoadValue) ← loadUnaligned m instr addr fun _ value => value
      .ok { machine := m, pcAfter := link, nextLoadReg, nextLoadValue }
  | OP_LWR => do
      let (nextLoadReg, nextLoadValue) ← loadUnaligned m instr addr fun old value =>
        old &&& 0xffffff00 ||| (value.sshiftRight 24 &&& 0xff)
      .ok { machine := m, pcAfter := link, nextLoadReg, nextLoadValue }
  | OP_MFHI => put instr.rd (m.ReadRegister HiReg)
  | OP_MFLO => put instr.rd (m.ReadRegister LoReg)
  | OP_MTHI => put HiReg rs
  | OP_MTLO => put LoReg rs
  | OP_MULT => hiLo (Mult rs rt true).1 (Mult rs rt true).2
  | OP_MULTU => hiLo (Mult rs rt false).1 (Mult rs rt false).2
  | OP_NOR => put instr.rd (~~~(rs ||| rt))
  | OP_OR => put instr.rd (rs ||| rs)
  | OP_ORI => put instr.rt (rs ||| (extra &&& 0xffff))
  | OP_SB => (WriteMem m addr 1 rt).map stored
  | OP_SH => (WriteMem m addr 2 rt).map stored
  | OP_SLL => put instr.rd (rt <<< extra.toNat)
  | OP_SLLV => put instr.rd (rt <<< (rs &&& 0x1f).toNat)
  | OP_SLT => put instr.rd (if rs.toInt < rt.toInt then 1 else 0)
  | OP_SLTI => put instr.rt (if rs.toInt < extra.toInt then 1 else 0)
  | OP_SLTIU => put instr.rt (if rs < extra then 1 else 0)
  | OP_SLTU => put instr.rd (if rs < rt then 1 else 0)
  | OP_SRA => put instr.rd (rt.sshiftRight extra.toNat)
  | OP_SRAV => put instr.rd (rt.sshiftRight (rs &&& 0x1f).toNat)
  -- `tmp` is an `int`
  | OP_SRL => put instr.rd (rt.sshiftRight extra.toNat)
  | OP_SRLV => put instr.rd (rt.sshiftRight (rs &&& 0x1f).toNat)
  | OP_SUB =>
      let diff := rs - rt
      if (rs ^^^ rt) &&& SIGN_BIT ≠ 0 ∧ (rs ^^^ diff) &&& SIGN_BIT ≠ 0 then
        .error (.raise m .OverflowException 0)
      else put instr.rd diff
  | OP_SUBU => put instr.rd (rs - rt)
  | OP_SW => (WriteMem m addr 4 rt).map stored
  | OP_SWL => (storeUnaligned m instr addr fun _ rt => rt).map stored
  | OP_SWR =>
      (storeUnaligned m instr addr
        fun value rt => value &&& (0xffffff : Word) ||| rt <<< 24).map stored
  | OP_SYSCALL => .error (.raise m .SyscallException 0)
  | OP_XOR => put instr.rd (rs ^^^ rt)
  | OP_XORI => put instr.rt (rs ^^^ (extra &&& 0xffff))
  | OP_UNIMP | OP_RES => .error (.raise m .IllegalInstrException 0)
  | SPECIAL | BCOND => .error .abort

/-- The end of `OneInstruction`: the delayed load and the program counters. -/
def finish (e : Effect) : Machine :=
  let m := e.machine.DelayedLoad e.nextLoadReg e.nextLoadValue
  let m := m.WriteRegister PrevPCReg (m.ReadRegister PCReg)
  let m := m.WriteRegister PCReg (m.ReadRegister NextPCReg)
  m.WriteRegister NextPCReg e.pcAfter

def OneInstruction (m : Machine) : Except Stop Machine := do
  let raw ← ReadMem m (m.ReadRegister PCReg) 4
  let effect ← Execute m (Decode raw)
  .ok (finish effect)

end Mips

end DistributedAscii.NachOS
