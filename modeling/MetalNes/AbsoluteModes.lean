import MetalNes.InstructionBoundaries
import MetalNes.ZeroPage

namespace MetalNes.AbsoluteModes

open NesBus NesTable NesAddressing NesDissasembly CycleCount ZeroPage InstructionBoundaries

/-- The byte the bus delivers at an address, which wraps at 64 KB. -/
def memoryByte (s : Nes) (addr : Nat) : Nat := (nesCpuRead s (BitVec.ofNat 16 addr) false).toNat

/-- The operand word at PC, which may lie across the end of memory. -/
def operand (s : Nes) : Nat := memoryByte s s.PC.toNat + 256 * memoryByte s (s.PC.toNat + 1)

def absoluteModes : List NesAddrMode := [.ABS, .ABX, .ABY, .IND]

/-- Where the indirect mode takes the high byte from: the carry out of the low byte of
the pointer is lost. -/
def highByteAt (w : Nat) : Nat := if w % 256 = 255 then w - 255 else w + 1

/-- PC is behind the operand, and the other registers are as they were. -/
structure OnlyAdvances (s t : Nes) : Prop where
  PC : t.PC.toNat = (s.PC.toNat + 2) % 65536
  A : t.A = s.A
  X : t.X = s.X
  Y : t.Y = s.Y
  SP : t.SP = s.SP
  P : t.P = s.P

structure IndexedLaw (w : Nat) (index : U8) (r : Nes × U8) : Prop where
  address : r.1.nesAddrAbs.toNat = (w + index.toNat) % 65536
  crosses : r.2 = 1 ↔ 256 ≤ w % 256 + index.toNat

structure AbsoluteLaw (s : Nes) : Prop where
  abs : (nesABS s).1.nesAddrAbs.toNat = operand s
  abx : IndexedLaw (operand s) s.X (nesABX s)
  aby : IndexedLaw (operand s) s.Y (nesABY s)
  ind : (nesIND s).1.nesAddrAbs.toNat =
    memoryByte s (operand s) + 256 * memoryByte s (highByteAt (operand s))
  advances : ∀ mode ∈ absoluteModes, OnlyAdvances s (addressing mode s).1

section Operand

variable (s : Nes)

theorem memoryByte_toNat (addr : U16) : memoryByte s addr.toNat = (nesCpuRead s addr false).toNat := by
  rw [memoryByte, BitVec.ofNat_toNat, BitVec.setWidth_eq]

theorem toNat_operandWord : (operandWord s).toNat = operand s := by
  have hnext : BitVec.ofNat 16 (s.PC.toNat + 1) = s.PC + 1 := by
    rw [BitVec.ofNat_add, BitVec.ofNat_toNat, BitVec.setWidth_eq]
    rfl
  rw [operand, memoryByte_toNat, memoryByte, hnext, operandWord, toNat_wordOf]
  omega

/-- The compared halves differ exactly if the low bytes carry. -/
theorem absoluteIndexed_law (index : U8) : IndexedLaw (operand s) index (absoluteIndexed s index) := by
  have hindex := index.isLt
  have hword := toNat_operandWord s
  constructor
  · show (operandWord s + index.setWidth 16).toNat = _
    rw [BitVec.toNat_add, BitVec.toNat_setWidth, hword, Nat.mod_eq_of_lt (by omega : index.toNat < 2 ^ 16)]
  · have hcarry := hiByte_index_ne (loByte (operandWord s)) (hiByte (operandWord s)) index
    rw [wordOf_bytes, toNat_loByte, hword] at hcarry
    rw [absoluteIndexed_snd, ← hcarry]
    by_cases hcross : hiByte (operandWord s + index.setWidth 16) ≠ hiByte (operandWord s)
    · rw [if_pos hcross]
      exact iff_of_true rfl hcross
    · rw [if_neg hcross]
      exact iff_of_false (by decide) hcross

/-- The low byte alone decides which of the two reads the indirect mode makes. -/
theorem nesIND_high : (if (nesCpuRead s s.PC false).setWidth 16 = (0x00FF : U16) then operandWord s &&& 0xFF00
    else operandWord s + 1) = BitVec.ofNat 16 (highByteAt (operand s)) := by
  have hlo : (nesCpuRead s s.PC false).toNat = operand s % 256 := by
    rw [← toNat_operandWord, ← toNat_loByte, operandWord, loByte_wordOf]
  have hlt := (nesCpuRead s s.PC false).isLt
  have hword := toNat_operandWord s
  have hbug : (nesCpuRead s s.PC false).setWidth 16 = (0x00FF : U16) ↔ operand s % 256 = 255 := by
    rw [← hlo]
    constructor
    · intro h
      bv_omega
    · intro h
      bv_omega
  rw [highByteAt]
  by_cases hff : operand s % 256 = 255
  · have hstart : operandWord s &&& 0xFF00 = wordOf 0 (hiByte (operandWord s)) :=
      (and_page _).trans BitVec.or_zero.symm
    have hpage : (operandWord s &&& 0xFF00).toNat = operand s - 255 := by
      have hzero : (0 : U8).toNat = 0 := rfl
      rw [hstart, toNat_wordOf, toNat_hiByte, hword]
      omega
    rw [if_pos (hbug.mpr hff), if_pos hff]
    apply BitVec.eq_of_toNat_eq
    rw [hpage, BitVec.toNat_ofNat, ← hword]
    have hw := (operandWord s).isLt
    omega
  · rw [if_neg (mt hbug.mp hff), if_neg hff, ← hword, BitVec.ofNat_add, BitVec.ofNat_toNat, BitVec.setWidth_eq]
    rfl

theorem nesIND_address : (nesIND s).1.nesAddrAbs.toNat =
    memoryByte s (operand s) + 256 * memoryByte s (highByteAt (operand s)) := by
  have hptr : operandWord s + 0 = operandWord s := BitVec.add_zero _
  have haddr : (nesIND s).1.nesAddrAbs = wordOf (nesCpuRead s (operandWord s + 0) false)
      (nesCpuRead s (if (nesCpuRead s s.PC false).setWidth 16 = (0x00FF : U16)
        then operandWord s &&& 0xFF00 else operandWord s + 1) false) := rfl
  rw [haddr, nesIND_high, hptr, toNat_wordOf, ← toNat_operandWord, memoryByte_toNat, toNat_operandWord, memoryByte]
  omega

theorem addressing_advances {mode : NesAddrMode} (h : mode ∈ absoluteModes) :
    OnlyAdvances s (addressing mode s).1 := by
  have hbytes : operandBytes mode = 2 := by
    revert mode
    decide
  have hPC : ((addressing mode s).1.PC).toNat = (s.PC.toNat + 2) % 65536 := by
    rw [addressing_PC, hbytes, BitVec.toNat_add]
    rfl
  exact ⟨hPC, addressing_A mode s, addressing_X mode s, addressing_Y mode s, addressing_SP mode s,
    addressing_P mode s⟩

end Operand

/-- For every memory, PC and index registers, on both sides of every page and of the
end of memory. -/
theorem absoluteLaw (s : Nes) : AbsoluteLaw s :=
  ⟨toNat_operandWord s, absoluteIndexed_law s s.X, absoluteIndexed_law s s.Y, nesIND_address s,
    fun _ h => addressing_advances s h⟩

end MetalNes.AbsoluteModes
