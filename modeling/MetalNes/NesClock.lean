import MetalNes.NesAddressing
import MetalNes.NesOperations

namespace MetalNes.NesClock

open NesBus NesTable NesAddressing NesOperations

/-- The row counter the table rows leave behind. -/
def initNes6502 (s : Nes) : Nes := { s with nesTemp := BitVec.ofNat 16 nesInstructions.length }

/-- The part of nes_clock before the addressing mode runs. -/
def fetchOpcode (s : Nes) : Nes :=
  let s := { s with nesOpcode := nesCpuRead s s.PC false }
  let s := nesSetflag s .U true
  let s := { s with PC := s.PC + 1 }
  { s with nesCycles := (nesInstruction s.nesOpcode).cycles }

def execute (s : Nes) : Nes :=
  let ins := nesInstruction s.nesOpcode
  let (s, additionalCycle1) := addressing ins.addrMode s
  let (s, additionalCycle2) := operate ins.operation s
  let s := { s with nesCycles := s.nesCycles + (additionalCycle1 &&& additionalCycle2) }
  nesSetflag s .U true

def nesClock (s : Nes) : Nes :=
  let s := if s.nesCycles = 0 then execute (fetchOpcode s) else s
  { s with nesCycles := s.nesCycles - 1 }

def nesInsComplete (s : Nes) : Bool := s.nesCycles == 0

def nesReset (s : Nes) : Nes :=
  let PC := wordOf (nesCpuRead s (0xFFFC + 0) false) (nesCpuRead s (0xFFFC + 1) false)
  { s with
    PC
    A := 0
    X := 0
    Y := 0
    SP := 0xFD
    P := 0x00 ||| NesPFlags.U.mask
    nesAddrRel := 0x0000
    nesAddrAbs := 0x0000
    nesFetched := 0x00
    nesCycles := 8 }

/-- The entry sequence of both hardware interrupts. The status register is
pushed after I has been set in it. -/
def interrupt (s : Nes) (vector : U16) (cycles : U8) : Nes :=
  let s := nesPush s (hiByte s.PC)
  let s := nesPush s (loByte s.PC)
  let s := nesSetflag s .B false
  let s := nesSetflag s .U true
  let s := nesSetflag s .I true
  let s := nesPush s s.P
  let s := { s with nesAddrAbs := vector }
  { s with
    PC := wordOf (nesCpuRead s (vector + 0) false) (nesCpuRead s (vector + 1) false)
    nesCycles := cycles }

def nesIrq (s : Nes) : Nes := if nesGetflag s .I = false then interrupt s 0xFFFE 7 else s

def nesNmirq (s : Nes) : Nes := interrupt s 0xFFFA 8

theorem nesClock_idle {s : Nes} (h : s.nesCycles ≠ 0) :
    nesClock s = { s with nesCycles := s.nesCycles - 1 } := by
  rw [nesClock, if_neg h]

theorem nesClock_start {s : Nes} (h : s.nesCycles = 0) :
    nesClock s = { execute (fetchOpcode s) with
      nesCycles := (execute (fetchOpcode s)).nesCycles - 1 } := by
  rw [nesClock, if_pos h]

/-- The state in which the operation of an instruction starts, with what its
addressing mode reports. -/
def started (s : Nes) : Nes × U8 :=
  addressing (nesInstruction (nesCpuRead s s.PC false)).addrMode (fetchOpcode s)

def addressed (s : Nes) : Nes := (started s).1

def performed (s : Nes) : Nes × U8 :=
  operate (nesInstruction (nesCpuRead s s.PC false)).operation (addressed s)

/-- The first clock of an instruction runs its operation, and afterwards touches
only U and the count. -/
theorem nesClock_eq {s : Nes} (h : s.nesCycles = 0) :
    nesClock s = { (performed s).1 with
      P := setflag (performed s).1.P .U true
      nesCycles := (performed s).1.nesCycles + ((started s).2 &&& (performed s).2) - 1 } := by
  rw [nesClock_start h]
  rfl

section Performed

variable {s : Nes} (h : s.nesCycles = 0)

include h

theorem nesClock_A : (nesClock s).A = (performed s).1.A := by rw [nesClock_eq h]

theorem nesClock_X : (nesClock s).X = (performed s).1.X := by rw [nesClock_eq h]

theorem nesClock_Y : (nesClock s).Y = (performed s).1.Y := by rw [nesClock_eq h]

theorem nesClock_P : (nesClock s).P = setflag (performed s).1.P .U true := by rw [nesClock_eq h]

theorem nesClock_SP : (nesClock s).SP = (performed s).1.SP := by rw [nesClock_eq h]

theorem nesClock_PC : (nesClock s).PC = (performed s).1.PC := by rw [nesClock_eq h]

theorem nesClock_nesCpuRam : (nesClock s).nesCpuRam = (performed s).1.nesCpuRam := by
  rw [nesClock_eq h]

theorem nesClock_stackLog : (nesClock s).stackLog = (performed s).1.stackLog := by
  rw [nesClock_eq h]

end Performed

theorem performed_of_opcode {s : Nes} {opcode : U8} (h : nesCpuRead s s.PC false = opcode) :
    performed s = operate (nesInstruction opcode).operation (addressed s) := by
  rw [performed, h]

theorem addressed_of_opcode {s : Nes} {opcode : U8} (h : nesCpuRead s s.PC false = opcode) :
    addressed s = (addressing (nesInstruction opcode).addrMode (fetchOpcode s)).1 := by
  rw [addressed, started, h]

section Addressed

variable (s : Nes)

theorem addressed_P : (addressed s).P = setflag s.P .U true := addressing_P _ _

theorem addressed_A : (addressed s).A = s.A := addressing_A _ _

theorem addressed_X : (addressed s).X = s.X := addressing_X _ _

theorem addressed_Y : (addressed s).Y = s.Y := addressing_Y _ _

theorem addressed_SP : (addressed s).SP = s.SP := addressing_SP _ _

theorem addressed_nesCpuRam : (addressed s).nesCpuRam = s.nesCpuRam := addressing_nesCpuRam _ _

theorem addressed_stackLog : (addressed s).stackLog = s.stackLog := addressing_stackLog _ _

end Addressed

theorem iterate_nesClock_idle (s : Nes) (n : Nat) (h : n ≤ s.nesCycles.toNat) :
    nesClock^[n] s = { s with nesCycles := s.nesCycles - BitVec.ofNat 8 n } := by
  induction n with
  | zero => simp
  | succ n ih =>
      have hb := s.nesCycles.isLt
      have hne : s.nesCycles - BitVec.ofNat 8 n ≠ 0 := by bv_omega
      have he : s.nesCycles - BitVec.ofNat 8 n - 1 = s.nesCycles - BitVec.ofNat 8 (n + 1) := by bv_omega
      rw [Function.iterate_succ_apply', ih (by omega), nesClock_idle hne]
      simp only [he]

def settle (s : Nes) : Nes := nesClock^[s.nesCycles.toNat] s

theorem settle_eq (s : Nes) : settle s = { s with nesCycles := 0 } := by
  rw [settle, iterate_nesClock_idle s _ le_rfl]
  simp

/-- A machine between instructions, with a one-bank cartridge and a program in
RAM at $0200. -/
def ramMachine (code : List U8) : Nes where
  A := 0
  X := 0
  Y := 0
  P := NesPFlags.U.mask
  SP := 0xFD
  PC := 0x0200
  nesTemp := 256
  nesFetched := 0
  nesAddrAbs := 0
  nesAddrRel := 0
  nesOpcode := 0
  nesCycles := 0
  nesCpuRam := fun a => if 0x0200 ≤ a then code.getD (a.toNat - 0x200) 0 else 0
  nesLoadedCart := ⟨fun _ => 0, 16384, fun _ => 0, 8192, 0, 1, 1, .zero⟩
  stackLog := []

/-- A machine in which an immediate instruction is about to fetch its operand. -/
def immediateMachine (opcode A m P : U8) : Nes :=
  { ramMachine [opcode, m] with A, P, nesOpcode := opcode, nesAddrAbs := 0x0201 }

theorem operand_immediateMachine {opcode : U8} (h : (nesInstruction opcode).addrMode ≠ .IMP) (A m P : U8) :
    operand (immediateMachine opcode A m P) = m := by
  refine (if_neg h).trans ?_
  simp [nesCpuRead, immediateMachine, ramMachine]

end MetalNes.NesClock
