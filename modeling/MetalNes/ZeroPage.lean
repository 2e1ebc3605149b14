import MetalNes.BusAccess
import MetalNes.CycleCount

namespace MetalNes.ZeroPage

open NesBus NesTable NesAddressing NesClock BusAccess CycleCount

/-- The byte behind the opcode, which PC names while the addressing mode runs. -/
def operandByte (s : Nes) : U8 := nesCpuRead s s.PC false

section Indexed

def indexedModes : List NesAddrMode := [.ZPX, .ZPY]

def zeroPageIndex (s : Nes) : NesAddrMode → U8
  | .ZPX => s.X
  | _ => s.Y

structure IndexedLaw (mode : NesAddrMode) (s : Nes) : Prop where
  address : (addressing mode s).1.nesAddrAbs = (operandByte s + zeroPageIndex s mode).setWidth 16
  PC : (addressing mode s).1.PC = s.PC + 1
  reads : ∀ addr, .read addr ∈ addressingUses s mode → addr = s.PC

theorem indexed_spec {mode : NesAddrMode} (h : mode ∈ indexedModes) (s : Nes) :
    addressing mode s = zeroPageIndexed s (zeroPageIndex s mode) ∧
      addressingUses s mode = [.read (s.PC + (zeroPageIndex s mode).setWidth 16)] := by
  simp only [indexedModes, List.mem_cons, List.not_mem_nil, or_false] at h
  rcases h with rfl | rfl
  all_goals exact ⟨rfl, rfl⟩

/-- The index moves the read along the instruction stream instead of the address along
the zero page. -/
theorem indexedLaw_iff (s : Nes) (mode : NesAddrMode) (h : mode ∈ indexedModes) :
    IndexedLaw mode s ↔ zeroPageIndex s mode = 0 := by
  obtain ⟨hmode, huses⟩ := indexed_spec h s
  constructor
  · intro hlaw
    have hread := hlaw.reads (s.PC + (zeroPageIndex s mode).setWidth 16)
    rw [huses] at hread
    have hstay := hread (List.mem_singleton_self _)
    bv_omega
  · intro hzero
    have hPC : s.PC + (0 : U8).setWidth 16 = s.PC := BitVec.add_zero _
    have hbyte : operandByte s + 0 = operandByte s := BitVec.add_zero _
    refine ⟨?_, ?_, ?_⟩
    · rw [hmode, hzero, hbyte, zeroPageIndexed, hPC]
      exact setWidth_and_255 _
    · rw [hmode]
      rfl
    · intro addr haddr
      rw [huses, hzero, hPC, List.mem_singleton] at haddr
      cases haddr
      rfl

/-- A machine whose PC is at the operand of a zero page instruction. -/
def atOperand (z X : U8) : Nes := { ramMachine [0xB5, z, 0x7F] with PC := 0x0201, X }

theorem unindexed_law : IndexedLaw .ZPX (atOperand 0x10 0) :=
  (indexedLaw_iff (atOperand 0x10 0) .ZPX (by decide)).mpr rfl

theorem indexed_stream : ¬ IndexedLaw .ZPX (atOperand 0x10 1) := by
  intro h
  have haddress := h.address
  revert haddress
  decide +kernel

end Indexed

section Indirect

/-- The pointer bytes that an indirect mode reads after its operand. -/
def pointerReads (s : Nes) (mode : NesAddrMode) : List BusUse := (addressingUses s mode).tail

structure IzxLaw (s : Nes) : Prop where
  address : (nesIZX s).1.nesAddrAbs = wordOf (nesCpuRead s ((operandByte s + s.X).setWidth 16) false)
    (nesCpuRead s ((operandByte s + s.X + 1).setWidth 16) false)
  PC : (nesIZX s).1.PC = s.PC + 1
  pointers : ∀ addr, .read addr ∈ pointerReads s .IZX → addr ≤ 0x00FF

structure IzyLaw (s : Nes) : Prop where
  address : (nesIZY s).1.nesAddrAbs = wordOf (nesCpuRead s ((operandByte s).setWidth 16) false)
    (nesCpuRead s ((operandByte s + 1).setWidth 16) false) + s.Y.setWidth 16
  carry : (nesIZY s).2 =
    if 256 ≤ (nesCpuRead s ((operandByte s).setWidth 16) false).toNat + s.Y.toNat then 1 else 0
  PC : (nesIZY s).1.PC = s.PC + 1
  pointers : ∀ addr, .read addr ∈ pointerReads s .IZY → addr ≤ 0x00FF

theorem setWidth_le (z : U8) : z.setWidth 16 ≤ (0x00FF : U16) := by
  have hz := z.isLt
  bv_omega

theorem hiByte_index_ne (lo hi index : U8) :
    hiByte (wordOf lo hi + index.setWidth 16) ≠ hi ↔ 256 ≤ lo.toNat + index.toNat := by
  have hlo := lo.isLt
  have hhi := hi.isLt
  have hindex := index.isLt
  have hword := toNat_wordOf lo hi
  rw [ne_eq, ← BitVec.toNat_inj, toNat_hiByte, BitVec.toNat_add, BitVec.toNat_setWidth, hword]
  omega

theorem nesIZY_law (s : Nes) : IzyLaw s := by
  have hlo : (operandByte s).setWidth 16 &&& (0x00FF : U16) = (operandByte s).setWidth 16 := setWidth_and_255 _
  have hhi := zeroPage_pointer (operandByte s)
  refine ⟨?_, ?_, rfl, ?_⟩
  · rw [← hlo, ← hhi]
    rfl
  · rw [nesIZY_snd]
    simp only [hiByte_wordOf, hiByte_index_ne]
    rfl
  · intro addr haddr
    simp only [pointerReads, addressingUses, List.tail_cons, List.mem_cons, List.not_mem_nil, or_false,
      BusUse.read.injEq] at haddr
    rcases haddr with rfl | rfl
    · rw [setWidth_and_255]
      exact setWidth_le _
    · rw [zeroPage_pointer]
      exact setWidth_le _

/-- The address of the second pointer byte, which the source multiplies by its mask. -/
def izxHighAddress (z X : U8) : U16 := (z.setWidth 16 + X.setWidth 16 + 1) * 0x00FF

theorem izxLowAddress (z X : U8) : (z.setWidth 16 + X.setWidth 16) &&& (0x00FF : U16) = (z + X).setWidth 16 := by
  have hm : (0x00FF : U16).toNat = 2 ^ 8 - 1 := rfl
  have hz := z.isLt
  have hX := X.isLt
  apply BitVec.eq_of_toNat_eq
  rw [BitVec.toNat_and, hm, Nat.and_two_pow_sub_one_eq_mod]
  simp only [BitVec.toNat_add, BitVec.toNat_setWidth]
  omega

theorem toNat_izxHighAddress (z X : U8) :
    (izxHighAddress z X).toNat = (z.toNat + X.toNat + 1) * 255 % 65536 := by
  have hz := z.isLt
  have hX := X.isLt
  have hsum : (z.setWidth 16 + X.setWidth 16 + 1 : U16).toNat = z.toNat + X.toNat + 1 := by
    bv_omega
  rw [izxHighAddress, BitVec.toNat_mul, hsum]
  rfl

/-- The product falls back into the zero page for two sums only. -/
theorem izxHighAddress_le (z X : U8) : izxHighAddress z X ≤ 0x00FF ↔
    z = 0 ∧ X = 0 ∨ z.toNat + X.toNat = 257 := by
  have hz := z.isLt
  have hX := X.isLt
  have hm : (0x00FF : U16).toNat = 255 := rfl
  have hzero : z = 0 ∧ X = 0 ↔ z.toNat + X.toNat = 0 := by
    constructor
    · rintro ⟨rfl, rfl⟩
      rfl
    · intro h
      exact ⟨by bv_omega, by bv_omega⟩
  rw [BitVec.le_def, toNat_izxHighAddress, hzero, hm]
  -- the product wraps around once at most
  rcases Nat.lt_or_ge ((z.toNat + X.toNat + 1) * 255) 65536 with hlt | hge
  · rw [Nat.mod_eq_of_lt hlt]
    omega
  · rw [Nat.mod_eq_sub_mod hge, Nat.mod_eq_of_lt (by omega)]
    omega

/-- The bytes from which the high half of the address has to come and does come, where
both are in the zero page. -/
def IzxCondition (s : Nes) : Prop :=
  operandByte s = 0 ∧ s.X = 0 ∧ nesCpuRead s 0x00FF false = nesCpuRead s 0x0001 false ∨
    (operandByte s).toNat + s.X.toNat = 257 ∧ nesCpuRead s 0x00FE false = nesCpuRead s 0x0002 false

theorem nesIZX_address (s : Nes) : (nesIZX s).1.nesAddrAbs =
    wordOf (nesCpuRead s ((operandByte s + s.X).setWidth 16) false)
      (nesCpuRead s (izxHighAddress (operandByte s) s.X) false) := by
  rw [← izxLowAddress]
  rfl

theorem wordOf_right_inj (lo : U8) {p q : U8} : wordOf lo p = wordOf lo q ↔ p = q := by
  refine ⟨fun h => ?_, fun h => by rw [h]⟩
  have hhi := congrArg hiByte h
  rwa [hiByte_wordOf, hiByte_wordOf] at hhi

theorem izx_pointers_iff (s : Nes) : (∀ addr, .read addr ∈ pointerReads s .IZX → addr ≤ 0x00FF) ↔
    izxHighAddress (operandByte s) s.X ≤ 0x00FF := by
  have hreads : pointerReads s .IZX =
      [.read ((operandByte s + s.X).setWidth 16), .read (izxHighAddress (operandByte s) s.X)] := by
    rw [← izxLowAddress]
    rfl
  rw [hreads]
  constructor
  · intro h
    exact h _ (List.mem_cons_of_mem _ (List.mem_singleton_self _))
  · intro hle addr haddr
    simp only [List.mem_cons, List.not_mem_nil, or_false, BusUse.read.injEq] at haddr
    rcases haddr with rfl | rfl
    · exact setWidth_le _
    · exact hle

theorem izxLaw_iff (s : Nes) : IzxLaw s ↔ IzxCondition s := by
  have hsplit : IzxLaw s ↔ izxHighAddress (operandByte s) s.X ≤ 0x00FF ∧
      nesCpuRead s (izxHighAddress (operandByte s) s.X) false =
        nesCpuRead s ((operandByte s + s.X + 1).setWidth 16) false := by
    rw [← izx_pointers_iff, ← wordOf_right_inj, ← nesIZX_address]
    exact ⟨fun h => ⟨h.pointers, h.address⟩, fun h => ⟨h.2, rfl, h.1⟩⟩
  rw [hsplit, izxHighAddress_le, IzxCondition, or_and_right]
  refine or_congr ?_ ?_
  · rw [and_assoc]
    refine and_congr_right fun hz => and_congr_right fun hX => ?_
    rw [hz, hX]
    exact Iff.rfl
  · refine and_congr_right fun hsum => ?_
    have hhigh : izxHighAddress (operandByte s) s.X = 0x00FE := by
      apply BitVec.eq_of_toNat_eq
      rw [toNat_izxHighAddress, hsum]
      rfl
    have hnext : (operandByte s + s.X + 1).setWidth 16 = (0x0002 : U16) := by
      bv_omega
    rw [hhigh, hnext]

/-- For every state: the pointers of (zp),Y are always right, those of (zp,X) in the two
cases that are left. -/
theorem indirect_iff (s : Nes) : (IzxLaw s ↔ IzxCondition s) ∧ IzyLaw s := ⟨izxLaw_iff s, nesIZY_law s⟩

/-- A machine at the operand of LDA (zp,X) whose pointer is $0307. -/
def atPointer : Nes :=
  { ramMachine [] with
    PC := 0x0201
    nesCpuRam := fun a => if a = 0x0201 then 0x10 else if a = 0x0010 then 0x07 else if a = 0x0011 then 0x03 else 0 }

theorem pointer_missed : ¬ IzxLaw atPointer := by
  intro h
  have haddress := h.address
  revert haddress
  decide +kernel

end Indirect

end MetalNes.ZeroPage
