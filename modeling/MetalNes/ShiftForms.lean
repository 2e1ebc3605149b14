import MetalNes.MultiWord
import MetalNes.NesClock
import MetalNes.NesEffects
import MetalNes.RamMirror

namespace MetalNes.ShiftForms

open MultiWord NesBus NesTable NesAddressing NesOperations NesClock FlagWrites NesEffects RamMirror

def shifts : List NesOp := [.ASL, .LSR, .ROL, .ROR]

theorem shifts_cases {op : NesOp} (h : op ∈ shifts) : op = .ASL ∨ op = .LSR ∨ op = .ROL ∨ op = .ROR := by
  simpa only [shifts, List.mem_cons, List.not_mem_nil, or_false] using h

/-- The byte that a shift makes of its operand and of the carry. -/
def shifted (c : Bool) (m : U8) : NesOp → U8
  | .ASL => double false m
  | .LSR => halve false m
  | .ROL => double c m
  | _ => halve c m

theorem loByte_double (m : U8) (c : Bool) : loByte ((m.setWidth 16 <<< 1) ||| ofBool c) = double c m := by
  revert c m
  decide +kernel

theorem loByte_halve (m : U8) (c : Bool) :
    loByte ((ofBool c <<< 7) ||| (m >>> 1).setWidth 16) = halve c m := by
  revert c m
  decide +kernel

theorem double_false (m : U8) : double false m = m <<< 1 := by
  apply BitVec.eq_of_toNat_eq
  simp [double, BitVec.toNat_shiftLeft, Nat.shiftLeft_eq]
  omega

theorem or_ofBool_false (x : U16) : x ||| ofBool false = x := BitVec.or_zero

theorem shifted_false (x : U16) : (ofBool false <<< 7) ||| x = x := BitVec.zero_or

section Operations

variable {op : NesOp} (h : op ∈ shifts) (s : Nes)

include h

/-- A shift stores the same byte in either form, but for the accumulator form of ASL. -/
theorem operate_shift :
    (operate op s).1.A = (if (nesInstruction s.nesOpcode).addrMode = .IMP then
      if op = .ASL then loByte s.nesTemp else shifted (getflag s.P .C) (operand s) op else s.A) ∧
    (operate op s).1.nesCpuRam = if (nesInstruction s.nesOpcode).addrMode = .IMP then s.nesCpuRam
      else ramWrite s.nesCpuRam s.nesAddrAbs (shifted (getflag s.P .C) (operand s) op) := by
  have hleft := loByte_double (operand s) false
  have hright := loByte_halve (operand s) false
  rw [or_ofBool_false] at hleft
  rw [shifted_false] at hright
  rcases shifts_cases h with rfl | rfl | rfl | rfl
  · simp only [operate, nesASL, nesFetch_eq, nesSetflag, storeShifted_eq, hleft, shifted, if_true, and_self]
  · simp only [operate, nesLSR, nesFetch_eq, nesSetflag, storeShifted_eq, hright, shifted, reduceCtorEq,
      if_false, and_self]
  · simp only [operate, nesROL, nesFetch_eq, nesSetflag, nesGetflag, storeShifted_eq, loByte_double, shifted,
      reduceCtorEq, if_false, and_self]
  · simp only [operate, nesROR, nesFetch_eq, nesSetflag, nesGetflag, storeShifted_eq, loByte_halve, shifted,
      reduceCtorEq, if_false, and_self]

theorem operate_shift_P : (operate op s).1.P = applyWrites s.P (flagWrites s op) :=
  operate_P (by decide) h s

theorem flagWrites_shift {t : Nes} (hoperand : operand s = operand t) (hP : s.P = t.P) :
    flagWrites s op = flagWrites t op := by
  rcases shifts_cases h with rfl | rfl | rfl | rfl
  all_goals simp only [flagWrites, nesGetflag, hoperand, hP]

end Operations

/-- The two machines are about to run the two forms of a shift: the one on its A, the
other on a RAM cell with the same byte. -/
structure Paired (op : NesOp) (s t : Nes) : Prop where
  accumulator : s.nesCycles = 0 ∧ (nesInstruction (nesCpuRead s s.PC false)).operation = op ∧
    (nesInstruction (nesCpuRead s s.PC false)).addrMode = .IMP
  memory : t.nesCycles = 0 ∧ (nesInstruction (nesCpuRead t t.PC false)).operation = op ∧
    (nesInstruction (nesCpuRead t t.PC false)).addrMode ≠ .IMP
  ram : (addressed t).nesAddrAbs ≤ 0x1FFF
  byte : nesCpuRead t (addressed t).nesAddrAbs false = s.A
  P : s.P = t.P

def FormsAgree (s t : Nes) : Prop :=
  (nesClock s).A = nesCpuRead (nesClock t) (addressed t).nesAddrAbs false ∧ (nesClock s).P = (nesClock t).P

theorem addressed_nesOpcode (s : Nes) : (addressed s).nesOpcode = nesCpuRead s s.PC false := addressing_nesOpcode _ _

theorem operand_accumulator {s : Nes} (h : (nesInstruction (nesCpuRead s s.PC false)).addrMode = .IMP) :
    operand (addressed s) = s.A := by
  rw [operand, addressed_nesOpcode, if_pos h, addressed, started, h]
  rfl

theorem operand_memory {t : Nes} (h : (nesInstruction (nesCpuRead t t.PC false)).addrMode ≠ .IMP)
    (hram : (addressed t).nesAddrAbs ≤ 0x1FFF) :
    operand (addressed t) = nesCpuRead t (addressed t).nesAddrAbs false := by
  rw [operand, addressed_nesOpcode, if_neg h, nesCpuRead_ram _ hram, nesCpuRead_ram _ hram, addressed_nesCpuRam]

theorem nesCpuRead_ramWrite {s : Nes} {ram : U16 → U8} {a : U16} {r : U8} (ha : a ≤ 0x1FFF)
    (hram : s.nesCpuRam = ramWrite ram a r) : nesCpuRead s a false = r := by
  rw [nesCpuRead_ram _ ha, hram, ramWrite, if_pos ha, Function.update_self]

section Paired

variable {op : NesOp} (hop : op ∈ shifts) {s t : Nes} (h : Paired op s t)

include h

theorem Paired.operands : operand (addressed s) = s.A ∧ operand (addressed t) = s.A :=
  ⟨operand_accumulator h.accumulator.2.2, (operand_memory h.memory.2.2 h.ram).trans h.byte⟩

theorem Paired.addressed_P : (addressed s).P = (addressed t).P := by
  rw [NesClock.addressed_P, NesClock.addressed_P, h.P]

include hop

theorem Paired.accumulator_byte : (nesClock s).A =
    if op = .ASL then loByte s.nesTemp else shifted (getflag (addressed t).P .C) s.A op := by
  obtain ⟨hs, hsop, hsmode⟩ := h.accumulator
  have hA := (operate_shift hop (addressed s)).1
  have htemp : (addressed s).nesTemp = s.nesTemp := addressing_nesTemp _ _
  rw [addressed_nesOpcode, if_pos hsmode, h.operands.1, h.addressed_P, htemp] at hA
  rw [nesClock_A hs, performed, hsop, hA]

theorem Paired.memory_byte : nesCpuRead (nesClock t) (addressed t).nesAddrAbs false =
    shifted (getflag (addressed t).P .C) s.A op := by
  obtain ⟨ht, htop, htmode⟩ := h.memory
  have hram := (operate_shift hop (addressed t)).2
  rw [addressed_nesOpcode, if_neg htmode, h.operands.2] at hram
  refine nesCpuRead_ramWrite h.ram (Eq.trans ?_ hram)
  rw [nesClock_nesCpuRam ht, performed, htop]

theorem Paired.flags : (nesClock s).P = (nesClock t).P := by
  have hoperands := h.operands.1.trans h.operands.2.symm
  rw [nesClock_P h.accumulator.1, nesClock_P h.memory.1, performed, performed, h.accumulator.2.1, h.memory.2.1,
    operate_shift_P hop, operate_shift_P hop, flagWrites_shift hop _ hoperands h.addressed_P, h.addressed_P]

end Paired

/-- The forms agree on every byte and every P, except that the accumulator form of ASL
leaves the byte of nes_temp. -/
theorem formsAgree_iff {op : NesOp} (hop : op ∈ shifts) {s t : Nes} (h : Paired op s t) :
    FormsAgree s t ↔ (op = .ASL → loByte s.nesTemp = s.A <<< 1) := by
  rw [FormsAgree, and_iff_left (h.flags hop), h.accumulator_byte hop, h.memory_byte hop]
  by_cases hasl : op = .ASL
  · subst hasl
    rw [if_pos rfl, shifted, double_false]
    exact ⟨fun he _ => he, fun he => he rfl⟩
  · rw [if_neg hasl]
    exact iff_of_true rfl fun he => absurd he hasl

def accumulatorState (opcode A : U8) : Nes := { ramMachine [opcode] with A }

def memoryState (opcode m : U8) : Nes :=
  { ramMachine [opcode, 0x10] with
    nesCpuRam := fun a => if a = 0x0200 then opcode else if a = 0x0201 then 0x10 else m }

theorem lsr_paired : Paired .LSR (accumulatorState 0x4A 0x05) (memoryState 0x46 0x05) where
  accumulator := by decide +kernel
  memory := by decide +kernel
  ram := by decide +kernel
  byte := by decide +kernel
  P := rfl

theorem lsr_forms_agree : FormsAgree (accumulatorState 0x4A 0x05) (memoryState 0x46 0x05) :=
  (formsAgree_iff (by decide) lsr_paired).mpr (by decide)

theorem asl_paired : Paired .ASL (accumulatorState 0x0A 0x01) (memoryState 0x06 0x01) where
  accumulator := by decide +kernel
  memory := by decide +kernel
  ram := by decide +kernel
  byte := by decide +kernel
  P := rfl

theorem asl_forms_differ : Paired .ASL (accumulatorState 0x0A 0x01) (memoryState 0x06 0x01) ∧
    ¬ FormsAgree (accumulatorState 0x0A 0x01) (memoryState 0x06 0x01) := by
  refine ⟨asl_paired, fun h => ?_⟩
  have hA := h.1
  revert hA
  decide +kernel

end MetalNes.ShiftForms
