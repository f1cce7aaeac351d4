import DistributedAscii.Lib.Words

/-!
# Lib — the MIPS I instruction set

The user-level integer instructions over a flat, little-endian memory: what
an instruction word stands for (`Instr.ofWord`) and what it does
(`State.exec`), in terms of signed and unsigned numbers. Branches have a
delay slot (`npc`), and a loaded value arrives behind the next instruction
(`pending`). Which accesses to memory fault, and with what cause, is a
parameter.

Where the architecture leaves the result open, and for the loads and stores
of unaligned words, the outcome is `undefined`.
-/

namespace DistributedAscii.Lib.Mips

abbrev Word := BitVec 32
abbrev Reg := BitVec 5

inductive Op where
  | add | addi | addiu | addu | and | andi | beq | bgez | bgezal | bgtz | blez | bltz | bltzal | bne
  | div | divu | j | jal | jalr | jr | lb | lbu | lh | lhu | lui | lw | lwl | lwr
  | mfhi | mflo | mthi | mtlo | mult | multu | nor | or | ori | sb | sh
  | sll | sllv | slt | slti | sltiu | sltu | sra | srav | srl | srlv
  | sub | subu | sw | swl | swr | syscall | xor | xori | reserved
deriving DecidableEq, Repr

/-- An operation and the fields of the three formats. -/
structure Instr where
  op : Op
  rs : Reg
  rt : Reg
  rd : Reg
  shamt : BitVec 5
  imm : BitVec 16
  target : BitVec 26

namespace Instr

/-- Operations by their function code. -/
def special : Nat → Op
  | 0 => .sll | 2 => .srl | 3 => .sra | 4 => .sllv | 6 => .srlv | 7 => .srav
  | 8 => .jr | 9 => .jalr | 12 => .syscall
  | 16 => .mfhi | 17 => .mthi | 18 => .mflo | 19 => .mtlo
  | 24 => .mult | 25 => .multu | 26 => .div | 27 => .divu
  | 32 => .add | 33 => .addu | 34 => .sub | 35 => .subu
  | 36 => .and | 37 => .or | 38 => .xor | 39 => .nor | 42 => .slt | 43 => .sltu
  | _ => .reserved

/-- Branches that compare with zero, by the field of the second register. -/
def regimm : Nat → Op
  | 0 => .bltz | 1 => .bgez | 16 => .bltzal | 17 => .bgezal
  | _ => .reserved

/-- Operations by the major code. -/
def major : Nat → Op
  | 2 => .j | 3 => .jal | 4 => .beq | 5 => .bne | 6 => .blez | 7 => .bgtz
  | 8 => .addi | 9 => .addiu | 10 => .slti | 11 => .sltiu
  | 12 => .andi | 13 => .ori | 14 => .xori | 15 => .lui
  | 32 => .lb | 33 => .lh | 34 => .lwl | 35 => .lw | 36 => .lbu | 37 => .lhu | 38 => .lwr
  | 40 => .sb | 41 => .sh | 42 => .swl | 43 => .sw | 46 => .swr
  | _ => .reserved

def opOf (w : Word) : Op :=
  match (w.extractLsb' 26 6).toNat with
  | 0 => special (w.extractLsb' 0 6).toNat
  | 1 => regimm (w.extractLsb' 16 5).toNat
  | op => major op

def ofWord (w : Word) : Instr where
  op := opOf w
  rs := w.extractLsb' 21 5
  rt := w.extractLsb' 16 5
  rd := w.extractLsb' 11 5
  shamt := w.extractLsb' 6 5
  imm := w.extractLsb' 0 16
  target := w.extractLsb' 0 26

end Instr

/-- The faults of accesses to memory. -/
structure Access (Cause : Type) where
  /-- By the address, and whether it is a write. -/
  fault : Word → Bool → Option Cause
  unaligned : Cause

inductive Trap (Cause : Type) where
  | memory (cause : Cause) (addr : Word)
  | overflow
  | reserved
  | syscall

@[ext] structure State where
  gpr : Reg → Word
  hi : Word
  lo : Word
  pc : Word
  npc : Word
  pending : Reg × Word
  mem : Word → BitVec 8

inductive Outcome (Cause : Type) where
  | next (s : State)
  | trap (t : Trap Cause)
  | undefined

namespace State

variable {Cause : Type} (access : Access Cause) (s : State)

/-- Register 0 is not written. -/
def put (r : Reg) (value : Word) : State :=
  if r = 0 then s else { s with gpr := fun r' => if r' = r then value else s.gpr r' }

@[simp] theorem put_npc (r : Reg) (value : Word) : (s.put r value).npc = s.npc := by
  rw [put]
  split <;> rfl

@[simp] theorem put_pc (r : Reg) (value : Word) : (s.put r value).pc = s.pc := by
  rw [put]
  split <;> rfl

/-- The end of an instruction: a pending load arrives, and the delay slot is
next. -/
def retire (npc : Word) (pending : Reg × Word) : State :=
  { s.put s.pending.1 s.pending.2 with pc := s.npc, npc, pending }

/-- The state that a trap leaves: only a pending load arrives. -/
def flush : State :=
  { s.put s.pending.1 s.pending.2 with pending := (0, 0) }

/-- An instruction that goes on to the next one. -/
def advance : Outcome Cause :=
  .next (s.retire (s.npc + 4) (0, 0))

def branch (taken : Bool) (offset : BitVec 16) : Outcome Cause :=
  .next (s.retire (if taken then s.npc + offset.signExtend 32 <<< 2 else s.npc + 4) (0, 0))

def jump (npc : Word) : Outcome Cause :=
  .next (s.retire npc (0, 0))

/-- A result that has to be a signed word. -/
def checked (r : Reg) (result : Int) : Outcome Cause :=
  if -2 ^ 31 ≤ result ∧ result < 2 ^ 31 then (s.put r (.ofInt 32 result)).advance
  else .trap .overflow

def setHiLo (hi lo : Word) : State :=
  { s with hi, lo }

/-- The fault of an access to `size` bytes. -/
def faultAt (addr : Word) (size : Nat) (writing : Bool) : Option (Trap Cause) :=
  if addr.toNat % size ≠ 0 then some (.memory access.unaligned addr)
  else (access.fault addr writing).map fun cause => .memory cause addr

def half (addr : Word) : BitVec 16 :=
  s.mem (addr + 1) ++ s.mem addr

def word (addr : Word) : Word :=
  Words.ofBytes (s.mem addr) (s.mem (addr + 1)) (s.mem (addr + 2)) (s.mem (addr + 3))

/-- The value arrives later. -/
def load (addr : Word) (size : Nat) (r : Reg) (value : Word) : Outcome Cause :=
  match faultAt access addr size false with
  | some t => .trap t
  | none => .next (s.retire (s.npc + 4) (r, value))

def store (addr : Word) (size : Nat) (value : Word) : Outcome Cause :=
  match faultAt access addr size true with
  | some t => .trap t
  | none =>
      { s with
        mem := fun a =>
          if (a - addr).toNat < size then (Words.bytesOf value).getD (a - addr).toNat 0
          else s.mem a }.advance

/-- The link register. -/
def ra : Reg := 31

/-- What an instruction does. -/
def exec (i : Instr) : Outcome Cause :=
  let rs := s.gpr i.rs
  let rt := s.gpr i.rt
  let simm := i.imm.signExtend 32
  let zimm := i.imm.setWidth 32
  let addr := rs + simm
  let link := s.npc + 4
  let region := s.npc.extractLsb' 28 4 ++ i.target ++ (0 : BitVec 2)
  match i.op with
  | .add => s.checked i.rd (rs.toInt + rt.toInt)
  | .addi => s.checked i.rt (rs.toInt + simm.toInt)
  | .addiu => (s.put i.rt (rs + simm)).advance
  | .addu => (s.put i.rd (rs + rt)).advance
  | .and => (s.put i.rd (rs &&& rt)).advance
  | .andi => (s.put i.rt (rs &&& zimm)).advance
  | .beq => s.branch (rs = rt) i.imm
  | .bgez => s.branch (0 ≤ rs.toInt) i.imm
  | .bgezal => if i.rs = ra then .undefined else (s.put ra link).branch (0 ≤ rs.toInt) i.imm
  | .bgtz => s.branch (0 < rs.toInt) i.imm
  | .blez => s.branch (rs.toInt ≤ 0) i.imm
  | .bltz => s.branch (rs.toInt < 0) i.imm
  | .bltzal => if i.rs = ra then .undefined else (s.put ra link).branch (rs.toInt < 0) i.imm
  | .bne => s.branch (rs ≠ rt) i.imm
  | .div =>
      if rt = 0 ∨ rs.toInt = -2 ^ 31 ∧ rt.toInt = -1 then .undefined
      else (s.setHiLo (.ofInt 32 (rs.toInt.tmod rt.toInt))
        (.ofInt 32 (rs.toInt.tdiv rt.toInt))).advance
  | .divu =>
      if rt = 0 then .undefined
      else (s.setHiLo (.ofNat 32 (rs.toNat % rt.toNat)) (.ofNat 32 (rs.toNat / rt.toNat))).advance
  | .j => s.jump region
  | .jal => (s.put ra link).jump region
  | .jalr => if i.rd = i.rs then .undefined else (s.put i.rd link).jump rs
  | .jr => s.jump rs
  | .lb => s.load access addr 1 i.rt ((s.mem addr).signExtend 32)
  | .lbu => s.load access addr 1 i.rt ((s.mem addr).setWidth 32)
  | .lh => s.load access addr 2 i.rt ((s.half addr).signExtend 32)
  | .lhu => s.load access addr 2 i.rt ((s.half addr).setWidth 32)
  | .lui => (s.put i.rt (i.imm ++ (0 : BitVec 16))).advance
  | .lw => s.load access addr 4 i.rt (s.word addr)
  | .lwl | .lwr | .swl | .swr => .undefined
  | .mfhi => (s.put i.rd s.hi).advance
  | .mflo => (s.put i.rd s.lo).advance
  | .mthi => { s with hi := rs }.advance
  | .mtlo => { s with lo := rs }.advance
  | .mult =>
      let product := BitVec.ofInt 64 (rs.toInt * rt.toInt)
      (s.setHiLo (product.extractLsb' 32 32) (product.extractLsb' 0 32)).advance
  | .multu =>
      let product := BitVec.ofNat 64 (rs.toNat * rt.toNat)
      (s.setHiLo (product.extractLsb' 32 32) (product.extractLsb' 0 32)).advance
  | .nor => (s.put i.rd (~~~(rs ||| rt))).advance
  | .or => (s.put i.rd (rs ||| rt)).advance
  | .ori => (s.put i.rt (rs ||| zimm)).advance
  | .sb => s.store access addr 1 rt
  | .sh => s.store access addr 2 rt
  | .sw => s.store access addr 4 rt
  | .sll => (s.put i.rd (rt <<< i.shamt.toNat)).advance
  | .sllv => (s.put i.rd (rt <<< (rs.toNat % 32))).advance
  | .slt => (s.put i.rd (if rs.toInt < rt.toInt then 1 else 0)).advance
  | .slti => (s.put i.rt (if rs.toInt < simm.toInt then 1 else 0)).advance
  | .sltiu => (s.put i.rt (if rs.toNat < simm.toNat then 1 else 0)).advance
  | .sltu => (s.put i.rd (if rs.toNat < rt.toNat then 1 else 0)).advance
  | .sra => (s.put i.rd (rt.sshiftRight i.shamt.toNat)).advance
  | .srav => (s.put i.rd (rt.sshiftRight (rs.toNat % 32))).advance
  | .srl => (s.put i.rd (rt >>> i.shamt.toNat)).advance
  | .srlv => (s.put i.rd (rt >>> (rs.toNat % 32))).advance
  | .sub => s.checked i.rd (rs.toInt - rt.toInt)
  | .subu => (s.put i.rd (rs - rt)).advance
  | .syscall => .trap .syscall
  | .xor => (s.put i.rd (rs ^^^ rt)).advance
  | .xori => (s.put i.rt (rs ^^^ zimm)).advance
  | .reserved => .trap .reserved

/-- The instruction at `pc`. -/
def fetch : Except (Trap Cause) Instr :=
  match faultAt access s.pc 4 false with
  | some t => .error t
  | none => .ok (.ofWord (s.word s.pc))

def step : Outcome Cause :=
  match s.fetch access with
  | .error t => .trap t
  | .ok i => s.exec access i

/-- `n` instructions, or the first of them that does not go on. -/
def run : Nat → State → Outcome Cause
  | 0, s => .next s
  | n + 1, s =>
      match s.step access with
      | .next s' => run n s'
      | .trap t => .trap t
      | .undefined => .undefined

/-- `C` holds of every instruction that a run of `n` comes to, in the state in
which it comes. -/
def EachInstr (C : State → Instr → Prop) : Nat → State → Prop
  | 0, _ => True
  | n + 1, s =>
      (match s.fetch access with
        | .ok i => C s i
        | .error _ => True) ∧
      match s.step access with
      | .next s' => EachInstr C n s'
      | .trap _ | .undefined => True

instance EachInstr.decidable {C : State → Instr → Prop} [∀ s i, Decidable (C s i)] :
    ∀ n s, Decidable (EachInstr access C n s)
  | 0, _ => .isTrue trivial
  | n + 1, s =>
      have : Decidable (match s.fetch access with
          | .ok i => C s i
          | .error _ => True) :=
        match s.fetch access with
        | .ok i => inferInstanceAs (Decidable (C s i))
        | .error _ => .isTrue trivial
      have : Decidable (match s.step access with
          | .next s' => EachInstr access C n s'
          | .trap _ | .undefined => True) :=
        match s.step access with
        | .next s' => EachInstr.decidable n s'
        | .trap _ | .undefined => .isTrue trivial
      inferInstanceAs (Decidable (_ ∧ _))

end State

end DistributedAscii.Lib.Mips
