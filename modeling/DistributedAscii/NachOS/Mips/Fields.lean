import DistributedAscii.Lib.Bits
import DistributedAscii.Lib.Mips
import DistributedAscii.NachOS.Mips.Decode

/-!
# NachOS — what `Decode` makes of a word

The two tables, the shifts and the masks give the operation and the fields
of the instruction set (`Decode_op`, `Decode_extra`).
-/

namespace DistributedAscii.NachOS.Mips

open Lib.Bits (mask)
open Lib.Mips (Instr Op)
open OpCode Format

/-- The operation that a translated code stands for. -/
def opOfCode : OpCode → Op
  | OP_ADD => .add | OP_ADDI => .addi | OP_ADDIU => .addiu | OP_ADDU => .addu | OP_AND => .and
  | OP_ANDI => .andi | OP_BEQ => .beq | OP_BGEZ => .bgez | OP_BGEZAL => .bgezal | OP_BGTZ => .bgtz
  | OP_BLEZ => .blez | OP_BLTZ => .bltz | OP_BLTZAL => .bltzal | OP_BNE => .bne | OP_DIV => .div
  | OP_DIVU => .divu | OP_J => .j | OP_JAL => .jal | OP_JALR => .jalr | OP_JR => .jr | OP_LB => .lb
  | OP_LBU => .lbu | OP_LH => .lh | OP_LHU => .lhu | OP_LUI => .lui | OP_LW => .lw | OP_LWL => .lwl
  | OP_LWR => .lwr | OP_MFHI => .mfhi | OP_MFLO => .mflo | OP_MTHI => .mthi | OP_MTLO => .mtlo
  | OP_MULT => .mult | OP_MULTU => .multu | OP_NOR => .nor | OP_OR => .or | OP_ORI => .ori
  | OP_SB => .sb | OP_SH => .sh | OP_SLL => .sll | OP_SLLV => .sllv | OP_SLT => .slt
  | OP_SLTI => .slti | OP_SLTIU => .sltiu | OP_SLTU => .sltu | OP_SRA => .sra | OP_SRAV => .srav
  | OP_SRL => .srl | OP_SRLV => .srlv | OP_SUB => .sub | OP_SUBU => .subu | OP_SW => .sw
  | OP_SWL => .swl | OP_SWR => .swr | OP_XOR => .xor | OP_XORI => .xori | OP_SYSCALL => .syscall
  | OP_UNIMP | OP_RES | SPECIAL | BCOND => .reserved

/-- The format that the tables give the code. -/
def formatOf : OpCode → Format
  | OP_J | OP_JAL => JFMT
  | OP_SLL | OP_SRL | OP_SRA => RFMT
  | _ => IFMT

/-- The operations that look at `extra`. -/
def UsesExtra (opCode : OpCode) : Prop :=
  opCode ∈ [OP_ADDI, OP_ADDIU, OP_ANDI, OP_BEQ, OP_BGEZ, OP_BGEZAL, OP_BGTZ, OP_BLEZ, OP_BLTZ,
    OP_BLTZAL, OP_BNE, OP_J, OP_JAL, OP_LB, OP_LBU, OP_LH, OP_LHU, OP_LUI, OP_LW, OP_LWL, OP_LWR,
    OP_ORI, OP_SB, OP_SH, OP_SLL, OP_SLTI, OP_SLTIU, OP_SRA, OP_SRL, OP_SW, OP_SWL, OP_SWR,
    OP_XORI]

instance (opCode : OpCode) : Decidable (UsesExtra opCode) :=
  inferInstanceAs (Decidable (_ ∈ _))

/-! ## The tables -/

theorem opTable_major : ∀ op : Fin 64, 2 ≤ op.val →
    opOfCode (opTable.getD op.val (OP_RES, IFMT)).1 = Instr.major op.val ∧
      (opTable.getD op.val (OP_RES, IFMT)).1 ≠ SPECIAL ∧
      (opTable.getD op.val (OP_RES, IFMT)).1 ≠ BCOND ∧
      (UsesExtra (opTable.getD op.val (OP_RES, IFMT)).1 →
        (opTable.getD op.val (OP_RES, IFMT)).2
          = formatOf (opTable.getD op.val (OP_RES, IFMT)).1) := by
  decide

theorem specialTable_special : ∀ funct : Fin 64,
    opOfCode (specialTable.getD funct.val OP_RES) = Instr.special funct.val ∧
      specialTable.getD funct.val OP_RES ≠ SPECIAL ∧ specialTable.getD funct.val OP_RES ≠ BCOND ∧
      (UsesExtra (specialTable.getD funct.val OP_RES) →
        formatOf (specialTable.getD funct.val OP_RES) = RFMT) := by
  decide

theorem opCodeOf_of_ne {opCode : OpCode} (w : Word) (hs : opCode ≠ SPECIAL) (hb : opCode ≠ BCOND) :
    opCodeOf w opCode = opCode := by
  cases opCode <;> first | rfl | contradiction

/-- The field that tells the branches on one register apart. -/
theorem toNat_bcond (w : Word) :
    (w &&& 0x1f0000).toNat = (w.extractLsb' 16 5).toNat * 65536 := by
  have hfield : w &&& (0x1f0000 : Word) = ((w >>> 16) &&& mask 32 5) <<< 16 := by
    refine BitVec.eq_of_getLsbD_eq fun i hi => ?_
    interval_cases i <;> simp [mask]
  have hlt := (w.extractLsb' 16 5).isLt
  rw [hfield, BitVec.toNat_shiftLeft, Lib.Bits.toNat_shift_mask (by decide), Nat.shiftLeft_eq,
    Nat.mod_eq_of_lt (by omega)]

theorem opCodeOf_bcond (w : Word) :
    opOfCode (opCodeOf w BCOND) = Instr.regimm (w.extractLsb' 16 5).toNat ∧
      opCodeOf w BCOND ≠ SPECIAL ∧ opCodeOf w BCOND ≠ BCOND ∧
      formatOf (opCodeOf w BCOND) = IFMT := by
  have hfield := toNat_bcond w
  have heq : ∀ k : Word, w &&& 0x1f0000 = k ↔ (w.extractLsb' 16 5).toNat * 65536 = k.toNat :=
    fun k => by rw [← hfield, BitVec.toNat_inj]
  simp only [opCodeOf, heq]
  have hlt := (w.extractLsb' 16 5).isLt
  generalize (w.extractLsb' 16 5).toNat = rt at hlt ⊢
  interval_cases rt <;> decide

theorem extraOf_IFMT (w : Word) : extraOf w IFMT = (w.extractLsb' 0 16).signExtend 32 := by
  have hsign : (w &&& 0xffff) &&& 0x8000 ≠ 0 ↔ (w &&& 0xffff).getLsbD 15 = true :=
    Lib.Bits.and_twoPow_ne_zero (i := 15) (by decide)
  have hmask : (w &&& 0xffff) &&& mask 32 16 = w &&& 0xffff := by
    rw [BitVec.and_assoc]
    rfl
  have hlow : (w &&& 0xffff).setWidth 16 = w.extractLsb' 0 16 := by
    refine BitVec.eq_of_getLsbD_eq fun i hi => ?_
    interval_cases i <;> simp
  rw [← hlow, ← Lib.Bits.extend_eq_signExtend (k := 15), hmask]
  simp only [extraOf, hsign]
  rfl

theorem extraOf_RFMT (w : Word) : (extraOf w RFMT).toNat = (w.extractLsb' 6 5).toNat :=
  Lib.Bits.toNat_shift_mask (k := 5) (by decide)

theorem extraOf_JFMT (w : Word) : extraOf w JFMT = (w.extractLsb' 0 26).setWidth 32 := by
  rw [← BitVec.setWidth_eq_extractLsb' (x := w) (w := 26) (by decide)]
  exact Lib.Bits.and_mask (k := 26) (by decide)

/-- **`Decode`** finds the operation and the fields. -/
structure Decoded (w : Word) : Prop where
  op : opOfCode (Decode w).opCode = (Instr.ofWord w).op
  translated : (Decode w).opCode ≠ SPECIAL ∧ (Decode w).opCode ≠ BCOND
  rs : (Decode w).rs = (Instr.ofWord w).rs.toNat
  rt : (Decode w).rt = (Instr.ofWord w).rt.toNat
  rd : (Decode w).rd = (Instr.ofWord w).rd.toNat
  extra : UsesExtra (Decode w).opCode → (Decode w).extra = extraOf w (formatOf (Decode w).opCode)

theorem decoded (w : Word) : Decoded w := by
  have hop : ((w >>> 26) &&& 0x3f).toNat = (w.extractLsb' 26 6).toNat :=
    Lib.Bits.toNat_shift_mask (k := 6) (by decide)
  have hfunct : (w &&& 0x3f).toNat = (w.extractLsb' 0 6).toNat := by
    have := Lib.Bits.toNat_shift_mask (x := w) (s := 0) (k := 6) (by decide)
    rwa [BitVec.ushiftRight_zero] at this
  have hlt := (w.extractLsb' 26 6).isLt
  have hfunctLt := (w.extractLsb' 0 6).isLt
  obtain ⟨hspecial, hs, hb, hr⟩ := specialTable_special ⟨_, hfunctLt⟩
  have hcases : opOfCode (Decode w).opCode = (Instr.ofWord w).op ∧
      (Decode w).opCode ≠ SPECIAL ∧ (Decode w).opCode ≠ BCOND ∧
      (UsesExtra (Decode w).opCode →
        (Decode w).extra = extraOf w (formatOf (Decode w).opCode)) := by
    simp only [Decode, Instr.ofWord, hop]
    obtain hzero | hone | hmany : (w.extractLsb' 26 6).toNat = 0 ∨ (w.extractLsb' 26 6).toNat = 1 ∨
        2 ≤ (w.extractLsb' 26 6).toNat := by omega
    · have hmajor : Instr.opOf w = Instr.special (w.extractLsb' 0 6).toNat := by
        simp only [Instr.opOf, hzero]
      rw [hmajor, hzero]
      simp only [opTable, List.getD_cons_zero, opCodeOf, hfunct]
      exact ⟨hspecial, hs, hb, fun huses => by rw [hr huses]⟩
    · have hmajor : Instr.opOf w = Instr.regimm (w.extractLsb' 16 5).toNat := by
        simp only [Instr.opOf, hone]
      obtain ⟨hregimm, hs', hb', hformat⟩ := opCodeOf_bcond w
      rw [hmajor, hone]
      exact ⟨hregimm, hs', hb', fun _ => congrArg (extraOf w) hformat.symm⟩
    · obtain ⟨hmajor, hs', hb', hformat⟩ := opTable_major ⟨_, hlt⟩ hmany
      have hof : Instr.opOf w = Instr.major (w.extractLsb' 26 6).toNat := by
        rw [Instr.opOf]
        split
        · omega
        · omega
        · rfl
      rw [hof, opCodeOf_of_ne w hs' hb']
      exact ⟨hmajor, hs', hb', fun huses => congrArg (extraOf w) (hformat huses)⟩
  obtain ⟨hop', hs', hb', hextra⟩ := hcases
  exact ⟨hop', ⟨hs', hb'⟩, Lib.Bits.toNat_shift_mask (k := 5) (by decide),
    Lib.Bits.toNat_shift_mask (k := 5) (by decide), Lib.Bits.toNat_shift_mask (k := 5) (by decide),
    hextra⟩

/-! ## The third field, by its format -/

section Decoded

variable {w : Word} (huses : UsesExtra (Decode w).opCode)
include huses

theorem extra_imm (hformat : formatOf (Decode w).opCode = IFMT) :
    (Decode w).extra = (Instr.ofWord w).imm.signExtend 32 := by
  rw [(decoded w).extra huses, hformat, extraOf_IFMT]
  rfl

theorem extra_shamt (hformat : formatOf (Decode w).opCode = RFMT) :
    (Decode w).extra.toNat = (Instr.ofWord w).shamt.toNat := by
  rw [(decoded w).extra huses, hformat, extraOf_RFMT]
  rfl

theorem extra_target (hformat : formatOf (Decode w).opCode = JFMT) :
    (Decode w).extra = (Instr.ofWord w).target.setWidth 32 := by
  rw [(decoded w).extra huses, hformat, extraOf_JFMT]
  rfl

end Decoded

end DistributedAscii.NachOS.Mips
