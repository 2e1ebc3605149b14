import MetalNes.NesBus
import MetalNes.NesTable

namespace MetalNes.NesAddressing

open NesBus NesTable

def nesIMP (s : Nes) : Nes × U8 := ({ s with nesFetched := s.A }, 0)

def nesIMM (s : Nes) : Nes × U8 := ({ s with nesAddrAbs := s.PC, PC := s.PC + 1 }, 0)

def nesZP0 (s : Nes) : Nes × U8 :=
  let nesAddrAbs := (nesCpuRead s s.PC false).setWidth 16
  ({ s with PC := s.PC + 1, nesAddrAbs := nesAddrAbs &&& 0x00FF }, 0)

/-- The zero page modes with an index add it to the address of the operand. -/
def zeroPageIndexed (s : Nes) (index : U8) : Nes × U8 :=
  let nesAddrAbs := (nesCpuRead s (s.PC + index.setWidth 16) false).setWidth 16
  ({ s with PC := s.PC + 1, nesAddrAbs := nesAddrAbs &&& 0xFF }, 0)

def nesZPX (s : Nes) : Nes × U8 := zeroPageIndexed s s.X

def nesZPY (s : Nes) : Nes × U8 := zeroPageIndexed s s.Y

def nesREL (s : Nes) : Nes × U8 :=
  let nesAddrRel := (nesCpuRead s s.PC false).setWidth 16
  ({ s with
      PC := s.PC + 1
      nesAddrRel := if asBool (nesAddrRel &&& 0x80) then nesAddrRel ||| 0xFF00 else nesAddrRel }, 0)

def operandWord (s : Nes) : U16 :=
  wordOf (nesCpuRead s s.PC false) (nesCpuRead s (s.PC + 1) false)

def nesABS (s : Nes) : Nes × U8 :=
  ({ s with PC := s.PC + 1 + 1, nesAddrAbs := operandWord s }, 0)

/-- The last step of the indexed modes: add the index to the base word and
report whether the address left the page named by the high byte. -/
def indexAddress (s : Nes) (base : U16) (hi index : U8) : Nes × U8 :=
  let nesAddrAbs := base + index.setWidth 16
  ({ s with nesAddrAbs }, if nesAddrAbs &&& (0xFF00 : U16) ≠ hi.setWidth 16 <<< 8 then 1 else 0)

def absoluteIndexed (s : Nes) (index : U8) : Nes × U8 :=
  indexAddress { s with PC := s.PC + 1 + 1 } (operandWord s) (nesCpuRead s (s.PC + 1) false) index

def nesABX (s : Nes) : Nes × U8 := absoluteIndexed s s.X

def nesABY (s : Nes) : Nes × U8 := absoluteIndexed s s.Y

def nesIND (s : Nes) : Nes × U8 :=
  let lo := (nesCpuRead s s.PC false).setWidth 16
  let ptr := operandWord s
  -- the page boundary bug of the hardware is reproduced on purpose
  let hiAddr := if lo = 0x00FF then ptr &&& 0xFF00 else ptr + 1
  ({ s with
      PC := s.PC + 1 + 1
      nesAddrAbs := wordOf (nesCpuRead s (ptr + 0) false) (nesCpuRead s hiAddr false) }, 0)

/-- The address of the high byte is multiplied by the mask. -/
def nesIZX (s : Nes) : Nes × U8 :=
  let val := (nesCpuRead s s.PC false).setWidth 16
  let lo := nesCpuRead s ((val + s.X.setWidth 16) &&& 0x00FF) false
  let hi := nesCpuRead s ((val + s.X.setWidth 16 + 1) * 0x00FF) false
  ({ s with PC := s.PC + 1, nesAddrAbs := wordOf lo hi }, 0)

def nesIZY (s : Nes) : Nes × U8 :=
  let val := (nesCpuRead s s.PC false).setWidth 16
  let lo := nesCpuRead s (val &&& 0x00FF) false
  let hi := nesCpuRead s ((val + 1) &&& 0x00FF) false
  indexAddress { s with PC := s.PC + 1 } (wordOf lo hi) hi s.Y

def addressing : NesAddrMode → Nes → Nes × U8
  | .IMP => nesIMP | .IMM => nesIMM | .ZP0 => nesZP0 | .ZPX => nesZPX
  | .ZPY => nesZPY | .REL => nesREL | .ABS => nesABS | .ABX => nesABX
  | .ABY => nesABY | .IND => nesIND | .IZX => nesIZX | .IZY => nesIZY

section Frame

variable (m : NesAddrMode) (s : Nes)

@[simp] theorem addressing_A : (addressing m s).1.A = s.A := by cases m <;> rfl

@[simp] theorem addressing_X : (addressing m s).1.X = s.X := by cases m <;> rfl

@[simp] theorem addressing_Y : (addressing m s).1.Y = s.Y := by cases m <;> rfl

@[simp] theorem addressing_P : (addressing m s).1.P = s.P := by cases m <;> rfl

@[simp] theorem addressing_SP : (addressing m s).1.SP = s.SP := by cases m <;> rfl

@[simp] theorem addressing_nesTemp : (addressing m s).1.nesTemp = s.nesTemp := by cases m <;> rfl

@[simp] theorem addressing_nesOpcode : (addressing m s).1.nesOpcode = s.nesOpcode := by
  cases m <;> rfl

@[simp] theorem addressing_nesCycles : (addressing m s).1.nesCycles = s.nesCycles := by
  cases m <;> rfl

@[simp] theorem addressing_nesCpuRam : (addressing m s).1.nesCpuRam = s.nesCpuRam := by
  cases m <;> rfl

@[simp] theorem addressing_stackLog : (addressing m s).1.stackLog = s.stackLog := by cases m <;> rfl

end Frame

end MetalNes.NesAddressing
