import MetalNes.InstructionSet
import MetalNes.CycleCount
import MetalNes.BranchLaws
import MetalNes.ResultFlags

namespace MetalNes.InstructionRefinement

open NesBus NesTable NesAddressing NesOperations NesClock Documented CycleCount BusAccess InstructionSet
open ResultFlags (loByte_succ loByte_pred loByte_setWidth loByte_shiftLeft loByte_rotateLeft loByte_rotateRight)
open BranchLaws (branches)

/-- The bus as instructions see it: RAM in front of the cartridge. The stack is in the
zero page, where nes_stack_base points. -/
def cartBus (cart : NesCartidge) : Bus (U16 → U8) where
  read ram addr :=
    if addr ≤ 0x1FFF then ram (addr &&& 0x07FF) else if addr ≤ 0x3FFF then 0 else cart.mapper.read cart addr
  write := ramWrite
  stackPage := 0

def view (s : Nes) : Cpu (U16 → U8) := ⟨s.A, s.X, s.Y, s.SP, s.PC, s.nesCpuRam⟩

def Honoured (r : Row) : Prop :=
  r.mode ∉ [.ZPX, .ZPY, .IZX] ∧ r.op ∉ [.ADC, .SBC, .EOR, .PHP, .BRK] ∧ ¬ (r.op = .ASL ∧ r.mode = .IMP)

instance (r : Row) : Decidable (Honoured r) := inferInstanceAs (Decidable (_ ∧ _))

section Bus

variable (s : Nes)

theorem read_view (addr : U16) : (cartBus s.nesLoadedCart).read s.nesCpuRam addr = nesCpuRead s addr false := by
  rw [nesCpuRead, cartBus]
  dsimp only
  split
  · rfl
  · next hram =>
    by_cases hppu : addr ≤ 0x3FFF
    · have hrange : 0x2000 ≤ addr ∧ addr ≤ 0x3FFF := ⟨by bv_omega, hppu⟩
      rw [if_pos hppu, if_pos hrange]
      rfl
    · rw [if_neg hppu, if_neg fun h => hppu h.2]

theorem stackAddress_view (cart : NesCartidge) (SP : U8) : stackAddress (cartBus cart) SP = nesStackAddr SP := by
  rw [nesStackAddr_eq]
  exact BitVec.zero_add _

theorem top_view (depth : U8) :
    top (cartBus s.nesLoadedCart) (view s) depth = nesCpuRead s (nesStackAddr (s.SP + depth)) false := by
  rw [top, stackAddress_view]
  exact read_view s _

theorem push_view (cart : NesCartidge) (c : Cpu (U16 → U8)) (data : U8) : push (cartBus cart) c data =
    { c with mem := ramWrite c.mem (nesStackAddr c.SP) data, SP := c.SP - 1 } := by
  rw [push, stackAddress_view]
  rfl

end Bus

section Operations

variable {t : Nes}

/-- An instruction that is honoured depends on no flag that nes_clock sets on its way. -/
theorem perform_setflag {M : Type} (bus : Bus M) (accumulator : Bool) (ea : U16) (m P : U8) (c : Cpu M) {op : NesOp}
    (h : op ∉ [.ADC, .SBC, .EOR, .PHP, .BRK]) :
    perform bus accumulator ea m (setflag P .U true) c op = perform bus accumulator ea m P c op := by
  have hcarry : carry (setflag P .U true) = carry P := by
    rw [carry, carry, getflag_setflag_of_ne P (by decide : NesPFlags.U ≠ .C), Bool.true_and]
  cases op with
  | ADC | SBC | EOR | PHP | BRK => simp at h
  | ROL | ROR => simp only [perform, hcarry]
  | BCC | BCS | BEQ | BMI | BNE | BPL | BVC | BVS => simp only [perform, taken_setflag]
  | _ => rfl

theorem view_branch (t : Nes) (b : Bool) :
    view (branch t b).1 = if b then { view t with PC := t.PC + t.nesAddrRel } else view t := by
  rw [branch_eq]
  cases b with
  | false | true => rfl

/-- What the handler of an operation does, seen from outside. -/
theorem view_operate {op : NesOp} (h : op ∉ [.ADC, .SBC, .EOR, .PHP, .BRK]) {accumulator : Bool}
    (hmode : (nesInstruction t.nesOpcode).addrMode = .IMP ↔ accumulator = true)
    (hasl : ¬ (op = .ASL ∧ accumulator = true)) {ea : U16}
    (hea : ea = if op ∈ branches then t.PC + t.nesAddrRel else t.nesAddrAbs) :
    view (operate op t).1 = perform (cartBus t.nesLoadedCart) accumulator ea (operand t) t.P (view t) op := by
  subst hea
  cases op with
  | ADC | SBC | EOR | PHP | BRK => simp at h
  | BCC | BCS | BEQ | BMI | BNE | BPL | BVC | BVS =>
      simp only [operate, nesBCC, nesBCS, nesBEQ, nesBMI, nesBNE, nesBPL, nesBVC, nesBVS, view_branch, nesGetflag,
        perform, taken, beq_false]
      rfl
  | ASL =>
      obtain rfl : accumulator = false := by simpa using hasl
      have himp : ¬ (nesInstruction t.nesOpcode).addrMode = .IMP := fun h => Bool.false_ne_true (hmode.mp h)
      simp only [operate, nesASL, nesFetch_eq, nesSetflag, storeShifted_eq, if_neg himp, loByte_shiftLeft]
      rfl
  | LSR | ROL | ROR =>
      simp only [operate, nesLSR, nesROL, nesROR, nesFetch_eq, nesSetflag, nesGetflag, storeShifted_eq, loByte_setWidth,
        loByte_rotateLeft, loByte_rotateRight, hmode]
      cases accumulator with
      | false | true => rfl
  | INC | DEC =>
      simp only [operate, nesINC, nesDEC, nesFetch_eq, storeCounted, nesCpuWrite_eq, loByte_succ, loByte_pred]
      rfl
  | STA | STX | STY =>
      simp only [operate, nesSTA, nesSTX, nesSTY, nesCpuWrite_eq]
      rfl
  | JSR | PHA =>
      simp only [operate, nesJSR, nesPHA, nesPush_eq, perform, pushWord, push_view]
      rfl
  | PLA | RTS | RTI =>
      have htwo : t.SP + 2 = t.SP + 1 + 1 := (add_assoc t.SP 1 1).symm
      have hthree : t.SP + 3 = t.SP + 1 + 1 + 1 := by rw [add_assoc, add_assoc]; rfl
      have hSP : (view t).SP = t.SP := rfl
      simp only [perform, top_view, hSP, htwo, hthree]
      rfl
  | LDA | LDX | LDY | AND | ORA | INX | INY | CMP | CPX | CPY | BIT =>
      simp only [operate, nesLDA, nesLDX, nesLDY, nesAND, nesORA, nesINX, nesINY, nesCMP, nesCPX, nesCPY, nesBIT,
        nesFetch_eq]
      rfl
  | _ => rfl

end Operations

section Operands

variable (s : Nes)

theorem byteOperand_view : byteOperand (cartBus s.nesLoadedCart) (view s) = nesCpuRead s (s.PC + 1) false :=
  read_view s _

theorem wordOperand_view : wordOperand (cartBus s.nesLoadedCart) (view s) = operandWord (fetchOpcode s) := by
  rw [operandWord_fetchOpcode, byteAt, byteAt, ← read_view, ← read_view]
  rfl

theorem zeroPageWord_view (zp : U8) : zeroPageWord (cartBus s.nesLoadedCart) (view s) zp =
    wordOf (nesCpuRead s (zp.setWidth 16) false) (nesCpuRead s ((zp + 1).setWidth 16) false) := by
  rw [← read_view, ← read_view]
  rfl

/-- The page boundary bug of the hardware: no carry goes into the high byte of the pointer. -/
theorem indirect_high (lo hi : U8) :
    (if lo.setWidth 16 = (0x00FF : U16) then wordOf lo hi &&& 0xFF00 else wordOf lo hi + 1) = wordOf (lo + 1) hi := by
  have hpage : wordOf lo hi &&& 0xFF00 = wordOf 0 hi := by
    rw [and_page, hiByte_wordOf]
    exact BitVec.or_zero.symm
  have hzero : (0 : U8).toNat = 0 := rfl
  have hlo := lo.isLt
  have hhi := hi.isLt
  have hword := toNat_wordOf lo hi
  have hnext := toNat_wordOf (lo + 1) hi
  have hsum : (lo + 1).toNat = (lo.toNat + 1) % 256 := BitVec.toNat_add lo 1
  split
  · next hlast =>
    obtain rfl : lo = 0xFF := by bv_omega
    exact hpage
  · next hinside =>
    have hne : lo.toNat ≠ 255 := fun he => hinside (BitVec.eq_of_toNat_eq (by simp [he]))
    apply BitVec.eq_of_toNat_eq
    rw [BitVec.toNat_add, hword, hnext, hsum]
    simp
    omega

theorem indirectWord_view (w : U16) : indirectWord (cartBus s.nesLoadedCart) (view s) w =
    wordOf (nesCpuRead s w false) (nesCpuRead s (wordOf (loByte w + 1) (hiByte w)) false) := by
  rw [← read_view, ← read_view]
  rfl

theorem address_view {mode : NesAddrMode} (h : mode ∉ [.IMP, .ZPX, .ZPY, .REL, .IZX]) :
    (addressing mode (fetchOpcode s)).1.nesAddrAbs = address (cartBus s.nesLoadedCart) (view s) mode := by
  cases mode with
  | IMP | ZPX | ZPY | REL | IZX => simp at h
  | IMM => rfl
  | ZP0 =>
      rw [address, byteOperand_view]
      exact setWidth_and_255 _
  | ABS => exact (wordOperand_view s).symm
  | ABX | ABY =>
      rw [address, wordOperand_view]
      rfl
  | IND =>
      rw [address, wordOperand_view, indirectWord_view, operandWord, loByte_wordOf, hiByte_wordOf, ← indirect_high]
      exact congrArg (fun a => wordOf (nesCpuRead s a false) _) (BitVec.add_zero _)
  | IZY =>
      rw [address, byteOperand_view, zeroPageWord_view, ← zeroPage_pointer]
      simp only [addressing, nesIZY, indexAddress, setWidth_and_255]
      rfl

theorem target_view : (nesREL (fetchOpcode s)).1.PC + (nesREL (fetchOpcode s)).1.nesAddrRel =
    address (cartBus s.nesLoadedCart) (view s) .REL := by
  have hPC : s.PC + 1 + 1 = s.PC + 2 := add_assoc s.PC 1 1
  have hoffset : (nesREL (fetchOpcode s)).1.nesAddrRel = (nesCpuRead s (s.PC + 1) false).signExtend 16 :=
    signExtend_masked _
  rw [address, byteOperand_view, hoffset]
  exact congrArg (· + _) hPC

theorem size_view (mode : NesAddrMode) : (addressing mode (fetchOpcode s)).1.PC = s.PC + size mode := by
  have htwo : s.PC + 1 + 1 = s.PC + 2 := add_assoc s.PC 1 1
  have hthree : s.PC + 1 + 1 + 1 = s.PC + 3 := by
    rw [htwo, add_assoc]
    rfl
  cases mode with
  | IMP => rfl
  | IMM | ZP0 | ZPX | ZPY | REL | IZX | IZY => exact htwo
  | ABS | ABX | ABY | IND => exact hthree

end Operands

end MetalNes.InstructionRefinement
