import MetalNes.Documented

namespace MetalNes.InstructionSet

open NesTable NesBus Documented

variable {M : Type}

/-- A memory as instructions see it, and the page that the stack is in. -/
structure Bus (M : Type) where
  read : M → U16 → U8
  write : M → U16 → U8 → M
  stackPage : U16

/-- The registers, the status register apart, and the memory. -/
@[ext] structure Cpu (M : Type) where
  A : U8
  X : U8
  Y : U8
  SP : U8
  PC : U16
  mem : M

section Operands

variable (bus : Bus M) (c : Cpu M)

def size : NesAddrMode → U16
  | .IMP => 1
  | .IMM | .ZP0 | .ZPX | .ZPY | .REL | .IZX | .IZY => 2
  | .ABS | .ABX | .ABY | .IND => 3

def byteOperand : U8 := bus.read c.mem (c.PC + 1)

def wordOperand : U16 := wordOf (bus.read c.mem (c.PC + 1)) (bus.read c.mem (c.PC + 2))

/-- A word in the zero page, which wraps in it. -/
def zeroPageWord (zp : U8) : U16 :=
  wordOf (bus.read c.mem (zp.setWidth 16)) (bus.read c.mem ((zp + 1).setWidth 16))

/-- A word at an address, whose high byte is read from the same page. -/
def indirectWord (w : U16) : U16 :=
  wordOf (bus.read c.mem w) (bus.read c.mem (wordOf (loByte w + 1) (hiByte w)))

/-- The effective address. For REL it is the target, and IMP has none. -/
def address : NesAddrMode → U16
  | .IMP => 0
  | .IMM => c.PC + 1
  | .ZP0 => (byteOperand bus c).setWidth 16
  | .ZPX => (byteOperand bus c + c.X).setWidth 16
  | .ZPY => (byteOperand bus c + c.Y).setWidth 16
  | .REL => c.PC + 2 + (byteOperand bus c).signExtend 16
  | .ABS => wordOperand bus c
  | .ABX => wordOperand bus c + c.X.setWidth 16
  | .ABY => wordOperand bus c + c.Y.setWidth 16
  | .IND => indirectWord bus c (wordOperand bus c)
  | .IZX => zeroPageWord bus c (byteOperand bus c + c.X)
  | .IZY => zeroPageWord bus c (byteOperand bus c) + c.Y.setWidth 16

end Operands

section Stack

variable (bus : Bus M) (c : Cpu M)

def stackAddress (SP : U8) : U16 := bus.stackPage + SP.setWidth 16

def push (data : U8) : Cpu M :=
  { c with mem := bus.write c.mem (stackAddress bus c.SP) data, SP := c.SP - 1 }

def pushWord (w : U16) : Cpu M := push bus (push bus c (hiByte w)) (loByte w)

def top (depth : U8) : U8 := bus.read c.mem (stackAddress bus (c.SP + depth))

end Stack

def carry (P : U8) : U8 := if getflag P .C then 1 else 0

/-- What an instruction does to the registers and the memory, once PC is behind it. It
works on the accumulator or at an effective address, finds m there, and takes from P the
flags it depends on. -/
def perform (bus : Bus M) (accumulator : Bool) (ea : U16) (m P : U8) (c : Cpu M) (op : NesOp) : Cpu M :=
  let store r := if accumulator then { c with A := r } else { c with mem := bus.write c.mem ea r }
  match op with
  | .LDA => { c with A := m }
  | .LDX => { c with X := m }
  | .LDY => { c with Y := m }
  | .STA => { c with mem := bus.write c.mem ea c.A }
  | .STX => { c with mem := bus.write c.mem ea c.X }
  | .STY => { c with mem := bus.write c.mem ea c.Y }
  | .TAX => { c with X := c.A }
  | .TAY => { c with Y := c.A }
  | .TXA => { c with A := c.X }
  | .TYA => { c with A := c.Y }
  | .TSX => { c with X := c.SP }
  | .TXS => { c with SP := c.X }
  | .ADC => { c with A := c.A + m + carry P }
  | .SBC => { c with A := c.A - m - (1 - carry P) }
  | .AND => { c with A := c.A &&& m }
  | .ORA => { c with A := c.A ||| m }
  | .EOR => { c with A := c.A ^^^ m }
  | .INX => { c with X := c.X + 1 }
  | .INY => { c with Y := c.Y + 1 }
  | .DEX => { c with X := c.X - 1 }
  | .DEY => { c with Y := c.Y - 1 }
  | .INC => { c with mem := bus.write c.mem ea (m + 1) }
  | .DEC => { c with mem := bus.write c.mem ea (m - 1) }
  | .ASL => store (m <<< 1)
  | .LSR => store (m >>> 1)
  | .ROL => store (m <<< 1 ||| carry P)
  | .ROR => store (carry P <<< 7 ||| m >>> 1)
  | .BCC | .BCS | .BEQ | .BMI | .BNE | .BPL | .BVC | .BVS => if taken P op then { c with PC := ea } else c
  | .JMP => { c with PC := ea }
  | .JSR => { pushWord bus c (c.PC - 1) with PC := ea }
  | .RTS => { c with SP := c.SP + 2, PC := wordOf (top bus c 1) (top bus c 2) + 1 }
  | .PHA => push bus c c.A
  | .PHP => push bus c (P ||| NesPFlags.B.mask ||| NesPFlags.U.mask)
  | .PLA => { c with SP := c.SP + 1, A := top bus c 1 }
  | .PLP => { c with SP := c.SP + 1 }
  | .RTI => { c with SP := c.SP + 3, PC := wordOf (top bus c 2) (top bus c 3) }
  | .BRK =>
      let c := push bus (pushWord bus c (c.PC + 1)) (P ||| NesPFlags.B.mask ||| NesPFlags.U.mask)
      { c with PC := wordOf (bus.read c.mem 0xFFFE) (bus.read c.mem 0xFFFF) }
  | .BIT | .CMP | .CPX | .CPY | .CLC | .CLD | .CLI | .CLV | .SEC | .SED | .SEI | .NOP | .UDF => c

/-- What an instruction works on. The implied mode stands for the accumulator, too. -/
def operandOf (bus : Bus M) (c : Cpu M) (mode : NesAddrMode) : U8 :=
  if mode = .IMP then c.A else bus.read c.mem (address bus c mode)

def exec (bus : Bus M) (r : Row) (P : U8) (c : Cpu M) : Cpu M :=
  perform bus (r.mode = .IMP) (address bus c r.mode) (operandOf bus c r.mode) P
    { c with PC := c.PC + size r.mode } r.op

def fetched (bus : Bus M) (c : Cpu M) : Option Row := documented.find? fun r => r.opcode = bus.read c.mem c.PC

/-- One instruction after the other, each with the status register that it finds. -/
def run (bus : Bus M) : List U8 → Cpu M → Cpu M
  | [], c => c
  | P :: rest, c => match fetched bus c with
    | some r => run bus rest (exec bus r P c)
    | none => c

theorem run_append (bus : Bus M) (first rest : List U8) (c : Cpu M) :
    run bus (first ++ rest) c = run bus rest (run bus first c) := by
  induction first generalizing c with
  | nil => rfl
  | cons P first ih =>
      rw [List.cons_append, run, run]
      cases hrow : fetched bus c with
      | some r => exact ih _
      | none =>
          cases rest with
          | nil => rfl
          | cons Q rest => rw [run, hrow]

end MetalNes.InstructionSet
