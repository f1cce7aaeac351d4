import DistributedAscii.NachOS.Machine

/-!
# NachOS — the instructions of the MIPS

The tables of `machine/mipssim.h` and `Instruction::Decode` of
`machine/mipssim.cc`.
-/

namespace DistributedAscii.NachOS.Mips

inductive OpCode where
  | OP_ADD | OP_ADDI | OP_ADDIU | OP_ADDU | OP_AND | OP_ANDI
  | OP_BEQ | OP_BGEZ | OP_BGEZAL | OP_BGTZ | OP_BLEZ | OP_BLTZ | OP_BLTZAL | OP_BNE
  | OP_DIV | OP_DIVU | OP_J | OP_JAL | OP_JALR | OP_JR
  | OP_LB | OP_LBU | OP_LH | OP_LHU | OP_LUI | OP_LW | OP_LWL | OP_LWR
  | OP_MFHI | OP_MFLO | OP_MTHI | OP_MTLO | OP_MULT | OP_MULTU
  | OP_NOR | OP_OR | OP_ORI | OP_SB | OP_SH | OP_SLL | OP_SLLV | OP_SLT | OP_SLTI
  | OP_SLTIU | OP_SLTU | OP_SRA | OP_SRAV | OP_SRL | OP_SRLV | OP_SUB | OP_SUBU
  | OP_SW | OP_SWL | OP_SWR | OP_XOR | OP_XORI | OP_SYSCALL | OP_UNIMP | OP_RES
  | SPECIAL | BCOND
deriving DecidableEq, Repr

inductive Format where
  | IFMT | JFMT | RFMT
deriving DecidableEq, Repr

open OpCode Format

/-- Translated operation codes and formats, by bits 31:26. -/
def opTable : List (OpCode × Format) := [
  (SPECIAL, RFMT), (BCOND, IFMT), (OP_J, JFMT), (OP_JAL, JFMT),
  (OP_BEQ, IFMT), (OP_BNE, IFMT), (OP_BLEZ, IFMT), (OP_BGTZ, IFMT),
  (OP_ADDI, IFMT), (OP_ADDIU, IFMT), (OP_SLTI, IFMT), (OP_SLTIU, IFMT),
  (OP_ANDI, IFMT), (OP_ORI, IFMT), (OP_XORI, IFMT), (OP_LUI, IFMT),
  (OP_UNIMP, IFMT), (OP_UNIMP, IFMT), (OP_UNIMP, IFMT), (OP_UNIMP, IFMT),
  (OP_RES, IFMT), (OP_RES, IFMT), (OP_RES, IFMT), (OP_RES, IFMT),
  (OP_RES, IFMT), (OP_RES, IFMT), (OP_RES, IFMT), (OP_RES, IFMT),
  (OP_RES, IFMT), (OP_RES, IFMT), (OP_RES, IFMT), (OP_RES, IFMT),
  (OP_LB, IFMT), (OP_LH, IFMT), (OP_LWL, IFMT), (OP_LW, IFMT),
  (OP_LBU, IFMT), (OP_LHU, IFMT), (OP_LWR, IFMT), (OP_RES, IFMT),
  (OP_SB, IFMT), (OP_SH, IFMT), (OP_SWL, IFMT), (OP_SW, IFMT),
  (OP_RES, IFMT), (OP_RES, IFMT), (OP_SWR, IFMT), (OP_RES, IFMT),
  (OP_UNIMP, IFMT), (OP_UNIMP, IFMT), (OP_UNIMP, IFMT), (OP_UNIMP, IFMT),
  (OP_RES, IFMT), (OP_RES, IFMT), (OP_RES, IFMT), (OP_RES, IFMT),
  (OP_UNIMP, IFMT), (OP_UNIMP, IFMT), (OP_UNIMP, IFMT), (OP_UNIMP, IFMT),
  (OP_RES, IFMT), (OP_RES, IFMT), (OP_RES, IFMT), (OP_RES, IFMT)]

/-- The operation codes of the `SPECIAL` instructions, by bits 5:0. -/
def specialTable : List OpCode := [
  OP_SLL, OP_RES, OP_SRL, OP_SRA, OP_SLLV, OP_RES, OP_SRLV, OP_SRAV,
  OP_JR, OP_JALR, OP_RES, OP_RES, OP_SYSCALL, OP_UNIMP, OP_RES, OP_RES,
  OP_MFHI, OP_MTHI, OP_MFLO, OP_MTLO, OP_RES, OP_RES, OP_RES, OP_RES,
  OP_MULT, OP_MULTU, OP_DIV, OP_DIVU, OP_RES, OP_RES, OP_RES, OP_RES,
  OP_ADD, OP_ADDU, OP_SUB, OP_SUBU, OP_AND, OP_OR, OP_XOR, OP_NOR,
  OP_RES, OP_RES, OP_SLT, OP_SLTU, OP_RES, OP_RES, OP_RES, OP_RES,
  OP_RES, OP_RES, OP_RES, OP_RES, OP_RES, OP_RES, OP_RES, OP_RES,
  OP_RES, OP_RES, OP_RES, OP_RES, OP_RES, OP_RES, OP_RES, OP_RES]

structure Instruction where
  opCode : OpCode
  rs : Nat
  rt : Nat
  rd : Nat
  extra : Word

/-- The immediate, the shift amount or the target. -/
def extraOf (value : Word) : Format → Word
  | IFMT =>
      let extra := value &&& 0xffff
      if extra &&& 0x8000 ≠ 0 then extra ||| 0xffff0000 else extra
  | RFMT => (value >>> 6) &&& 0x1f
  | JFMT => value &&& 0x3ffffff

/-- The second table, and the branches on one register. -/
def opCodeOf (value : Word) : OpCode → OpCode
  | SPECIAL => specialTable.getD (value &&& 0x3f).toNat OP_RES
  | BCOND =>
      let i := value &&& 0x1f0000
      if i = 0 then OP_BLTZ
      else if i = 0x10000 then OP_BGEZ
      else if i = 0x100000 then OP_BLTZAL
      else if i = 0x110000 then OP_BGEZAL
      else OP_UNIMP
  | opCode => opCode

def Decode (value : Word) : Instruction :=
  let op := opTable.getD ((value >>> 26) &&& 0x3f).toNat (OP_RES, IFMT)
  { opCode := opCodeOf value op.1
    rs := ((value >>> 21) &&& 0x1f).toNat
    rt := ((value >>> 16) &&& 0x1f).toNat
    rd := ((value >>> 11) &&& 0x1f).toNat
    extra := extraOf value op.2 }

end DistributedAscii.NachOS.Mips
