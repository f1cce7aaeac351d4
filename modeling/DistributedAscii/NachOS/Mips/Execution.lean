import DistributedAscii.NachOS.Mips.Arithmetic
import DistributedAscii.NachOS.Mips.Simulation

/-!
# NachOS — every instruction, one by one

The operations that the simulator gets wrong are outside of `Faithful`: `OR`
with a bit that the first operand lacks, the logical shifts to the right of
a negative number, and a jump over the border of a region of the address
space. For the others the switch of `OneInstruction` does what the
architecture says (`Execute_follows`).
-/

namespace DistributedAscii.NachOS.Mips

open Lib.Mips (State Access Trap Reg Instr Op Outcome)
open OpCode

/-- Where the simulator computes what the architecture says. -/
def Faithful (s : State) (i : Instr) : Prop :=
  match i.op with
  | .or => s.gpr i.rs ||| s.gpr i.rt = s.gpr i.rs
  | .srl => i.shamt = 0 ∨ 0 ≤ (s.gpr i.rt).toInt
  | .srlv => (s.gpr i.rs).toNat % 32 = 0 ∨ 0 ≤ (s.gpr i.rt).toInt
  | .j | .jal => (s.npc + 4).extractLsb' 28 4 = s.npc.extractLsb' 28 4
  | _ => True

instance (s : State) (i : Instr) : Decidable (Faithful s i) := by
  unfold Faithful
  split <;> infer_instance

variable {m : Machine}

theorem ReadRegister_eq (h : Proper m) (r : Reg) : m.ReadRegister r.toNat = (view m).gpr r := by
  rw [gpr_view]
  split
  case isTrue hr =>
    rw [hr]
    exact h.zero
  case isFalse => rfl

/-- An instruction that writes one register. -/
theorem follows_advance (h : Proper m) (r : Reg) (value : Word) :
    Follows m (.ok { machine := m.WriteRegister r.toNat value, pcAfter := (view m).npc + 4 })
      ((view m).put r value).advance := by
  rw [State.advance, State.put_npc]
  exact follows_put h r value _

/-- A sum or a difference that has to fit. -/
theorem follows_checked (h : Proper m) (r : Reg) {overflow : Prop} [Decidable overflow]
    {result : Int} {value : Word} (hoverflow : overflow ↔ ¬InWord result)
    (hvalue : BitVec.ofInt 32 result = value) :
    Follows m (if overflow then .error (.raise m .OverflowException 0)
        else .ok { machine := m.WriteRegister r.toNat value, pcAfter := (view m).npc + 4 })
      ((view m).checked r result) := by
  rw [State.checked]
  by_cases hin : InWord result
  · have hin' : -2 ^ 31 ≤ result ∧ result < 2 ^ 31 := hin
    rw [if_neg (hoverflow.not.mpr (not_not.mpr hin)), if_pos hin', hvalue]
    exact follows_advance h r value
  · have hin' : ¬(-2 ^ 31 ≤ result ∧ result < 2 ^ 31) := hin
    rw [if_pos (hoverflow.mpr hin), if_neg hin']
    rfl

theorem follows_defined {c : Prop} [Decidable c] {executed : Except Stop Effect}
    {outcome : Outcome ExceptionType} (hdefined : ¬c → Follows m executed outcome) :
    Follows m executed (if c then .undefined else outcome) := by
  split
  case isTrue => trivial
  case isFalse hc => exact hdefined hc

theorem follows_branch (h : Proper m) {taken taken' : Bool} (htaken : taken = taken')
    (offset : BitVec 16) :
    Follows m (.ok { machine := m
                     pcAfter := if taken then (view m).npc + IndexToAddr (offset.signExtend 32)
                       else (view m).npc + 4 })
      ((view m).branch taken' offset) := by
  subst htaken
  exact follows_control h _

/-- The branches that link first. -/
theorem follows_link (h : Proper m) {taken taken' : Prop} [Decidable taken] [Decidable taken']
    (htaken : taken ↔ taken') (offset : BitVec 16) :
    Follows m (.ok { machine := m.WriteRegister R31 ((view m).npc + 4)
                     pcAfter := if taken then (view m).npc + IndexToAddr (offset.signExtend 32)
                       else (view m).npc + 4 })
      (((view m).put State.ra ((view m).npc + 4)).branch taken' offset) := by
  rw [State.branch, State.put_npc]
  simp only [htaken, decide_eq_true_iff]
  exact follows_put h State.ra _ _

/-- A register that the link does not go to. -/
theorem ReadRegister_link (h : Proper m) {r link : Reg} (hne : r ≠ link) (value : Word) :
    (m.WriteRegister link.toNat value).ReadRegister r.toNat = (view m).gpr r := by
  rw [← ReadRegister_eq h]
  exact if_neg fun heq => hne (BitVec.eq_of_toNat_eq heq)

theorem ReadRegister_R31 (h : Proper m) {r : Reg} (hne : r ≠ State.ra) (value : Word) :
    (m.WriteRegister R31 value).ReadRegister r.toNat = (view m).gpr r :=
  ReadRegister_link h hne value

/-! ## Alignment is checked twice -/

theorem ReadMem_unaligned {addr : Word} {size : Nat} (hsize : IsSize size)
    (haddr : addr.toNat % size ≠ 0) :
    ReadMem m addr size = .error (.raise m (.access .AddressErrorException) addr) :=
  ReadMem_fault hsize (t := .memory .AddressErrorException addr) (by
    rw [State.faultAt, if_pos haddr]
    rfl)

theorem ReadMem_checked_half (addr : Word) (rest : Word → Except Stop Effect) :
    (if addr &&& 0x1 ≠ 0 then .error (.raise m (.access .AddressErrorException) addr)
      else ReadMem m addr 2 >>= rest) = ReadMem m addr 2 >>= rest := by
  split
  case isTrue haddr =>
    rw [ReadMem_unaligned (.inr (.inl rfl)) (and_one_ne_zero'.mp haddr)]
    rfl
  case isFalse => rfl

theorem ReadMem_checked_word (addr : Word) (rest : Word → Except Stop Effect) :
    (if addr &&& 0x3 ≠ 0 then .error (.raise m (.access .AddressErrorException) addr)
      else ReadMem m addr 4 >>= rest) = ReadMem m addr 4 >>= rest := by
  split
  case isTrue haddr =>
    rw [ReadMem_unaligned (.inr (.inr rfl)) (and_three_ne_zero.mp haddr)]
    rfl
  case isFalse => rfl

/-! ## The switch -/

/-- A logical shift of the simulator that is one. -/
theorem sshiftRight_faithful {x : Word} {n : Nat} (hfaithful : n = 0 ∨ 0 ≤ x.toInt) :
    x.sshiftRight n = x >>> n := by
  rcases hfaithful with rfl | hsign
  · simp
  · exact sshiftRight_of_nonneg hsign n

theorem Execute_follows (h : Proper m) (w : Word) (hfaithful : Faithful (view m) (Instr.ofWord w)) :
    Follows m (Execute m (Decode w)) ((view m).exec (access m) (Instr.ofWord w)) := by
  obtain ⟨hop, ⟨hspecial, hbcond⟩, hrs, hrt, hrd, -⟩ := decoded w
  have himm := extra_imm (w := w)
  have hshamt := extra_shamt (w := w)
  have htarget := extra_target (w := w)
  have hnpc : m.ReadRegister NextPCReg = (view m).npc := rfl
  have hhi : m.ReadRegister HiReg = (view m).hi := rfl
  have hlo : m.ReadRegister LoReg = (view m).lo := rfl
  cases hcode : (Decode w).opCode <;> rw [hcode] at hop himm hshamt htarget <;>
    simp only [opOfCode] at hop <;>
    simp only [Faithful, ← hop] at hfaithful <;>
    simp only [Execute, State.exec, hcode, ← hop, hrs, hrt, hrd, ReadRegister_eq h, hnpc, hhi, hlo]
  case OP_ADD => exact follows_checked h _ add_overflow (ofInt_add ..)
  case OP_ADDU => exact follows_advance h _ _
  case OP_AND => exact follows_advance h _ _
  case OP_SUB => exact follows_checked h _ sub_overflow (ofInt_sub ..)
  case OP_SUBU => exact follows_advance h _ _
  case OP_NOR => exact follows_advance h _ _
  case OP_XOR => exact follows_advance h _ _
  case OP_MFHI => exact follows_advance h _ _
  case OP_MFLO => exact follows_advance h _ _
  case OP_OR =>
    rw [BitVec.or_self, hfaithful]
    exact follows_advance h _ _
  case OP_SLT => exact follows_advance h _ _
  case OP_SLTU => exact follows_advance h _ _
  case OP_SLLV =>
    rw [shift_amount]
    exact follows_advance h _ _
  case OP_SRAV =>
    rw [shift_amount]
    exact follows_advance h _ _
  case OP_SRLV =>
    rw [shift_amount, sshiftRight_faithful hfaithful]
    exact follows_advance h _ _
  -- immediates
  case OP_ADDI =>
    rw [himm (by decide) rfl]
    exact follows_checked h _ addi_overflow (ofInt_add ..)
  case OP_ADDIU =>
    rw [himm (by decide) rfl]
    exact follows_advance h _ _
  case OP_ANDI =>
    rw [himm (by decide) rfl, signExtend_and_mask]
    exact follows_advance h _ _
  case OP_ORI =>
    rw [himm (by decide) rfl, signExtend_and_mask]
    exact follows_advance h _ _
  case OP_XORI =>
    rw [himm (by decide) rfl, signExtend_and_mask]
    exact follows_advance h _ _
  case OP_SLTI =>
    rw [himm (by decide) rfl]
    exact follows_advance h _ _
  case OP_SLTIU =>
    rw [himm (by decide) rfl]
    exact follows_advance h _ _
  case OP_LUI =>
    rw [himm (by decide) rfl, lui_eq]
    exact follows_advance h _ _
  case OP_SLL =>
    rw [hshamt (by decide) rfl]
    exact follows_advance h _ _
  case OP_SRA =>
    rw [hshamt (by decide) rfl]
    exact follows_advance h _ _
  case OP_SRL =>
    rw [hshamt (by decide) rfl,
      sshiftRight_faithful (hfaithful.imp_left (congrArg BitVec.toNat))]
    exact follows_advance h _ _
  -- branches and jumps
  case OP_BEQ =>
    rw [himm (by decide) rfl]
    exact follows_branch h rfl _
  case OP_BNE =>
    rw [himm (by decide) rfl]
    exact follows_branch h rfl _
  case OP_BGTZ =>
    rw [himm (by decide) rfl]
    exact follows_branch h rfl _
  case OP_BLEZ =>
    rw [himm (by decide) rfl]
    exact follows_branch h rfl _
  case OP_BGEZ =>
    rw [himm (by decide) rfl]
    exact follows_branch h (decide_eq_decide.mpr and_SIGN_BIT_eq_zero) _
  case OP_BLTZ =>
    rw [himm (by decide) rfl]
    exact follows_branch h (decide_eq_decide.mpr and_SIGN_BIT) _
  case OP_BGEZAL =>
    refine follows_defined fun hra => ?_
    rw [himm (by decide) rfl, ReadRegister_R31 h hra]
    exact follows_link h and_SIGN_BIT_eq_zero _
  case OP_BLTZAL =>
    refine follows_defined fun hra => ?_
    rw [himm (by decide) rfl, ReadRegister_R31 h hra]
    exact follows_link h and_SIGN_BIT _
  case OP_J =>
    rw [htarget (by decide) rfl, region_eq _ hfaithful]
    exact follows_control h _
  case OP_JAL =>
    rw [htarget (by decide) rfl, region_eq _ hfaithful]
    exact follows_put h State.ra _ _
  case OP_JR => exact follows_control h _
  case OP_JALR =>
    refine follows_defined fun hrd' => ?_
    rw [ReadRegister_link h (Ne.symm hrd')]
    exact follows_put h _ _ _
  -- products and quotients
  case OP_MTHI =>
    have hnext := follows_next (m := m)
      { machine := m.WriteRegister HiReg ((view m).gpr (Instr.ofWord w).rs)
        pcAfter := (view m).npc + 4 } h.load zero_lt_regs rfl
    rwa [view_hi] at hnext
  case OP_MTLO =>
    have hnext := follows_next (m := m)
      { machine := m.WriteRegister LoReg ((view m).gpr (Instr.ofWord w).rs)
        pcAfter := (view m).npc + 4 } h.load zero_lt_regs rfl
    rwa [view_lo] at hnext
  case OP_MULT =>
    rw [Mult_words _ _ true rfl]
    exact follows_hiLo h _ _ _
  case OP_MULTU =>
    rw [Mult_words _ _ false rfl]
    exact follows_hiLo h _ _ _
  case OP_DIV =>
    refine follows_defined fun hdefined => ?_
    rw [not_or, ← div_overflow] at hdefined
    rw [if_neg hdefined.1, if_neg hdefined.2]
    exact follows_hiLo h _ _ _
  case OP_DIVU =>
    refine follows_defined fun hzero => ?_
    rw [if_neg hzero, BitVec.umod_def, BitVec.udiv_def]
    exact follows_hiLo h _ _ _
  -- loads and stores
  case OP_LB =>
    rw [himm (by decide) rfl]
    exact follows_load h (.inl rfl) _ ReadMem_byte (loadByte_signed _) _ rfl
  case OP_LBU =>
    rw [himm (by decide) rfl]
    exact follows_load h (.inl rfl) _ ReadMem_byte (loadByte_unsigned _) _ rfl
  case OP_LH =>
    rw [himm (by decide) rfl, ReadMem_checked_half]
    exact follows_load h (.inr (.inl rfl)) _ ReadMem_half (loadHalf_signed _) _ rfl
  case OP_LHU =>
    rw [himm (by decide) rfl, ReadMem_checked_half]
    exact follows_load h (.inr (.inl rfl)) _ ReadMem_half (loadHalf_unsigned _) _ rfl
  case OP_LW =>
    rw [himm (by decide) rfl, ReadMem_checked_word]
    exact follows_load h (.inr (.inr rfl)) _ ReadMem_word rfl _ rfl
  case OP_SB =>
    rw [himm (by decide) rfl]
    exact follows_store h (.inl rfl) _ _ rfl
  case OP_SH =>
    rw [himm (by decide) rfl]
    exact follows_store h (.inr (.inl rfl)) _ _ rfl
  case OP_SW =>
    rw [himm (by decide) rfl]
    exact follows_store h (.inr (.inr rfl)) _ _ rfl
  case OP_LWL => trivial
  case OP_LWR => trivial
  case OP_SWL => trivial
  case OP_SWR => trivial
  case OP_SYSCALL => rfl
  case OP_UNIMP => rfl
  case OP_RES => rfl
  case SPECIAL => exact absurd hcode hspecial
  case BCOND => exact absurd hcode hbcond

end DistributedAscii.NachOS.Mips
