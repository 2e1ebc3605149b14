import MetalNes.NesTable
import MetalNes.NesBus

namespace MetalNes.Documented

open NesTable NesBus

/-- A line of the 6502 instruction reference. Its accumulator mode is the implied
mode of the emulator. -/
structure Row where
  op : NesOp
  mode : NesAddrMode
  opcode : U8
  cycles : Nat
  deriving DecidableEq

def rows (op : NesOp) (forms : List (NesAddrMode × U8 × Nat)) : List Row :=
  forms.map fun f => ⟨op, f.1, f.2.1, f.2.2⟩

/-- The official instructions of the 6502 by mnemonic: mode, opcode and base
number of cycles of each form. -/
def documented : List Row := [
  rows .ADC [(.IMM, 0x69, 2), (.ZP0, 0x65, 3), (.ZPX, 0x75, 4), (.ABS, 0x6D, 4),
    (.ABX, 0x7D, 4), (.ABY, 0x79, 4), (.IZX, 0x61, 6), (.IZY, 0x71, 5)],
  rows .AND [(.IMM, 0x29, 2), (.ZP0, 0x25, 3), (.ZPX, 0x35, 4), (.ABS, 0x2D, 4),
    (.ABX, 0x3D, 4), (.ABY, 0x39, 4), (.IZX, 0x21, 6), (.IZY, 0x31, 5)],
  rows .ASL [(.IMP, 0x0A, 2), (.ZP0, 0x06, 5), (.ZPX, 0x16, 6), (.ABS, 0x0E, 6), (.ABX, 0x1E, 7)],
  rows .BCC [(.REL, 0x90, 2)],
  rows .BCS [(.REL, 0xB0, 2)],
  rows .BEQ [(.REL, 0xF0, 2)],
  rows .BIT [(.ZP0, 0x24, 3), (.ABS, 0x2C, 4)],
  rows .BMI [(.REL, 0x30, 2)],
  rows .BNE [(.REL, 0xD0, 2)],
  rows .BPL [(.REL, 0x10, 2)],
  rows .BRK [(.IMP, 0x00, 7)],
  rows .BVC [(.REL, 0x50, 2)],
  rows .BVS [(.REL, 0x70, 2)],
  rows .CLC [(.IMP, 0x18, 2)],
  rows .CLD [(.IMP, 0xD8, 2)],
  rows .CLI [(.IMP, 0x58, 2)],
  rows .CLV [(.IMP, 0xB8, 2)],
  rows .CMP [(.IMM, 0xC9, 2), (.ZP0, 0xC5, 3), (.ZPX, 0xD5, 4), (.ABS, 0xCD, 4),
    (.ABX, 0xDD, 4), (.ABY, 0xD9, 4), (.IZX, 0xC1, 6), (.IZY, 0xD1, 5)],
  rows .CPX [(.IMM, 0xE0, 2), (.ZP0, 0xE4, 3), (.ABS, 0xEC, 4)],
  rows .CPY [(.IMM, 0xC0, 2), (.ZP0, 0xC4, 3), (.ABS, 0xCC, 4)],
  rows .DEC [(.ZP0, 0xC6, 5), (.ZPX, 0xD6, 6), (.ABS, 0xCE, 6), (.ABX, 0xDE, 7)],
  rows .DEX [(.IMP, 0xCA, 2)],
  rows .DEY [(.IMP, 0x88, 2)],
  rows .EOR [(.IMM, 0x49, 2), (.ZP0, 0x45, 3), (.ZPX, 0x55, 4), (.ABS, 0x4D, 4),
    (.ABX, 0x5D, 4), (.ABY, 0x59, 4), (.IZX, 0x41, 6), (.IZY, 0x51, 5)],
  rows .INC [(.ZP0, 0xE6, 5), (.ZPX, 0xF6, 6), (.ABS, 0xEE, 6), (.ABX, 0xFE, 7)],
  rows .INX [(.IMP, 0xE8, 2)],
  rows .INY [(.IMP, 0xC8, 2)],
  rows .JMP [(.ABS, 0x4C, 3), (.IND, 0x6C, 5)],
  rows .JSR [(.ABS, 0x20, 6)],
  rows .LDA [(.IMM, 0xA9, 2), (.ZP0, 0xA5, 3), (.ZPX, 0xB5, 4), (.ABS, 0xAD, 4),
    (.ABX, 0xBD, 4), (.ABY, 0xB9, 4), (.IZX, 0xA1, 6), (.IZY, 0xB1, 5)],
  rows .LDX [(.IMM, 0xA2, 2), (.ZP0, 0xA6, 3), (.ZPY, 0xB6, 4), (.ABS, 0xAE, 4), (.ABY, 0xBE, 4)],
  rows .LDY [(.IMM, 0xA0, 2), (.ZP0, 0xA4, 3), (.ZPX, 0xB4, 4), (.ABS, 0xAC, 4), (.ABX, 0xBC, 4)],
  rows .LSR [(.IMP, 0x4A, 2), (.ZP0, 0x46, 5), (.ZPX, 0x56, 6), (.ABS, 0x4E, 6), (.ABX, 0x5E, 7)],
  rows .NOP [(.IMP, 0xEA, 2)],
  rows .ORA [(.IMM, 0x09, 2), (.ZP0, 0x05, 3), (.ZPX, 0x15, 4), (.ABS, 0x0D, 4),
    (.ABX, 0x1D, 4), (.ABY, 0x19, 4), (.IZX, 0x01, 6), (.IZY, 0x11, 5)],
  rows .PHA [(.IMP, 0x48, 3)],
  rows .PHP [(.IMP, 0x08, 3)],
  rows .PLA [(.IMP, 0x68, 4)],
  rows .PLP [(.IMP, 0x28, 4)],
  rows .ROL [(.IMP, 0x2A, 2), (.ZP0, 0x26, 5), (.ZPX, 0x36, 6), (.ABS, 0x2E, 6), (.ABX, 0x3E, 7)],
  rows .ROR [(.IMP, 0x6A, 2), (.ZP0, 0x66, 5), (.ZPX, 0x76, 6), (.ABS, 0x6E, 6), (.ABX, 0x7E, 7)],
  rows .RTI [(.IMP, 0x40, 6)],
  rows .RTS [(.IMP, 0x60, 6)],
  rows .SBC [(.IMM, 0xE9, 2), (.ZP0, 0xE5, 3), (.ZPX, 0xF5, 4), (.ABS, 0xED, 4),
    (.ABX, 0xFD, 4), (.ABY, 0xF9, 4), (.IZX, 0xE1, 6), (.IZY, 0xF1, 5)],
  rows .SEC [(.IMP, 0x38, 2)],
  rows .SED [(.IMP, 0xF8, 2)],
  rows .SEI [(.IMP, 0x78, 2)],
  rows .STA [(.ZP0, 0x85, 3), (.ZPX, 0x95, 4), (.ABS, 0x8D, 4), (.ABX, 0x9D, 5),
    (.ABY, 0x99, 5), (.IZX, 0x81, 6), (.IZY, 0x91, 6)],
  rows .STX [(.ZP0, 0x86, 3), (.ZPY, 0x96, 4), (.ABS, 0x8E, 4)],
  rows .STY [(.ZP0, 0x84, 3), (.ZPX, 0x94, 4), (.ABS, 0x8C, 4)],
  rows .TAX [(.IMP, 0xAA, 2)],
  rows .TAY [(.IMP, 0xA8, 2)],
  rows .TSX [(.IMP, 0xBA, 2)],
  rows .TXA [(.IMP, 0x8A, 2)],
  rows .TXS [(.IMP, 0x9A, 2)],
  rows .TYA [(.IMP, 0x98, 2)]].flatten

def affected : NesOp → List NesPFlags
  | .ADC | .SBC => [.N, .V, .Z, .C]
  | .ASL | .LSR | .ROL | .ROR | .CMP | .CPX | .CPY => [.N, .Z, .C]
  | .AND | .ORA | .EOR | .LDA | .LDX | .LDY | .INC | .INX | .INY | .DEC | .DEX | .DEY
  | .TAX | .TAY | .TSX | .TXA | .TYA | .PLA => [.N, .Z]
  | .BIT => [.N, .V, .Z]
  | .CLC | .SEC => [.C]
  | .CLD | .SED => [.D]
  | .CLI | .SEI | .BRK => [.I]
  | .CLV => [.V]
  | .PLP | .RTI => [.N, .V, .D, .I, .Z, .C]
  | _ => []

def taken (P : U8) : NesOp → Bool
  | .BCC => !getflag P .C
  | .BCS => getflag P .C
  | .BNE => !getflag P .Z
  | .BEQ => getflag P .Z
  | .BPL => !getflag P .N
  | .BMI => getflag P .N
  | .BVC => !getflag P .V
  | .BVS => getflag P .V
  | _ => false

/-- The six flags programs can observe in P. -/
def programFlags : List NesPFlags := [.C, .Z, .I, .D, .V, .N]

def Untouched (op : NesOp) (f : NesPFlags) : Prop := f ∈ programFlags ∧ f ∉ affected op

instance (op : NesOp) (f : NesPFlags) : Decidable (Untouched op f) :=
  inferInstanceAs (Decidable (_ ∧ _))

/-- The table of the emulator has every documented form at its opcode, with the
documented base count. Only the mode of BRK is its own. -/
theorem documented_table : ∀ r ∈ documented,
    (nesInstruction r.opcode).operation = r.op ∧
      (nesInstruction r.opcode).cycles = BitVec.ofNat 8 r.cycles ∧
      (nesInstruction r.opcode).addrMode = if r.op = .BRK then .IMM else r.mode := by
  decide +kernel

theorem documented_cycles : ∀ r ∈ documented, 2 ≤ r.cycles ∧ r.cycles ≤ 7 := by
  decide +kernel

theorem documented_opcodes : (documented.map Row.opcode).Nodup ∧ documented.length = 151 := by
  decide +kernel

end MetalNes.Documented
