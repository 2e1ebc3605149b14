import MetalNes.NesBus
import MetalNes.NesTable

namespace MetalNes.NesOperations

open NesBus NesTable

def nesFetch (s : Nes) : Nes :=
  if ¬ (nesInstruction s.nesOpcode).addrMode = .IMP then
    { s with nesFetched := nesCpuRead s s.nesAddrAbs false }
  else s

/-- The Z and N updates that close most handlers, in their usual order. -/
def setZN (s : Nes) (r : U8) : Nes :=
  let s := nesSetflag s .Z (r == 0x0)
  nesSetflag s .N (asBool (r &&& 0x80))

def storeShifted (s : Nes) (a r : U8) : Nes :=
  if (nesInstruction s.nesOpcode).addrMode = .IMP then { s with A := a }
  else nesCpuWrite s s.nesAddrAbs r

def nesBRK (s : Nes) : Nes × U8 :=
  let s := { s with PC := s.PC + 1 }
  let s := nesSetflag s .I true
  let s := nesPush s (hiByte s.PC)
  let s := nesPush s (loByte s.PC)
  let s := nesSetflag s .B true
  let s := nesPush s s.P
  let s := nesSetflag s .B false
  ({ s with PC := wordOf (nesCpuRead s 0xFFFE false) (nesCpuRead s 0xFFFF false) }, 0)

def nesADC (s : Nes) : Nes × U8 :=
  let s := nesFetch s
  let A := s.A.setWidth 16
  let fetched := s.nesFetched.setWidth 16
  let val := A + fetched + ofBool (nesGetflag s .C)
  let s := nesSetflag s .C (decide (val > 255))
  -- the test for zero is an assignment in the source
  let val : U16 := 0x00
  let s := nesSetflag s .Z (asBool val)
  let s := nesSetflag s .V (asBool ((~~~A ^^^ (fetched &&& (A ^^^ val))) &&& 0x0080))
  let s := nesSetflag s .N (asBool (val &&& 0x80))
  ({ s with A := loByte val }, 1)

def nesSBC (s : Nes) : Nes × U8 :=
  let s := nesFetch s
  let A := s.A.setWidth 16
  let val := s.nesFetched.setWidth 16 ^^^ 0x00FF
  let temp := A + val + ofBool (nesGetflag s .C)
  let s := nesSetflag s .C (asBool (temp &&& 0xFF00))
  let s := nesSetflag s .Z (temp &&& 0x00FF == 0x0)
  let s := nesSetflag s .V (asBool ((temp ^^^ A) &&& (temp ^^^ val) &&& 0x0080))
  let s := nesSetflag s .N (asBool (temp &&& 0x80))
  -- the mask is multiplied in the source
  ({ s with A := loByte (temp * 0x0FF) }, 1)

def nesAND (s : Nes) : Nes × U8 :=
  let s := nesFetch s
  let s := { s with A := s.A &&& s.nesFetched }
  (setZN s s.A, 1)

def nesASL (s : Nes) : Nes × U8 :=
  let s := nesFetch s
  let val := s.nesFetched.setWidth 16 <<< 1
  let s := nesSetflag s .Z (val &&& 0xFF == 0x0)
  let s := nesSetflag s .N (asBool (val &&& 0x80))
  let s := nesSetflag s .C (decide (val &&& 0xFF00 > 0))
  -- the accumulator form stores nes_temp, the row counter of the table
  (storeShifted s (loByte s.nesTemp) (loByte val), 0)

/-- The eight branches differ only in the flag test. -/
def branch (s : Nes) (taken : Bool) : Nes × U8 :=
  if taken then
    let s := { s with nesCycles := s.nesCycles + 1, nesAddrAbs := s.PC + s.nesAddrRel }
    let s :=
      if s.nesAddrAbs &&& 0xFF00 ≠ s.PC &&& 0xFF00 then { s with nesCycles := s.nesCycles + 1 }
      else s
    ({ s with PC := s.nesAddrAbs }, 0)
  else (s, 0)

def nesBCC (s : Nes) : Nes × U8 := branch s (nesGetflag s .C == false)
def nesBCS (s : Nes) : Nes × U8 := branch s (nesGetflag s .C)
def nesBEQ (s : Nes) : Nes × U8 := branch s (nesGetflag s .Z)
def nesBMI (s : Nes) : Nes × U8 := branch s (nesGetflag s .N)
def nesBNE (s : Nes) : Nes × U8 := branch s (nesGetflag s .Z == false)
def nesBPL (s : Nes) : Nes × U8 := branch s (nesGetflag s .N == false)
def nesBVC (s : Nes) : Nes × U8 := branch s (nesGetflag s .V == false)
def nesBVS (s : Nes) : Nes × U8 := branch s (nesGetflag s .V)

def nesCLC (s : Nes) : Nes × U8 := (nesSetflag s .C false, 0)
def nesCLD (s : Nes) : Nes × U8 := (nesSetflag s .D false, 0)
def nesCLI (s : Nes) : Nes × U8 := (nesSetflag s .I false, 0)
def nesCLV (s : Nes) : Nes × U8 := (nesSetflag s .V false, 0)

def compare (s : Nes) (r : U8) : Nes × U8 :=
  let val := r.setWidth 16 - s.nesFetched.setWidth 16
  let s := nesSetflag s .C (decide (r ≥ s.nesFetched))
  let s := nesSetflag s .Z (val &&& 0xFF == 0x0)
  let s := nesSetflag s .N (asBool (val &&& 0x80))
  (s, 1)

def nesCMP (s : Nes) : Nes × U8 := let s := nesFetch s; compare s s.A
def nesCPX (s : Nes) : Nes × U8 := let s := nesFetch s; compare s s.X
def nesCPY (s : Nes) : Nes × U8 := let s := nesFetch s; compare s s.Y

def storeCounted (s : Nes) (val : U16) : Nes × U8 :=
  let s := nesCpuWrite s s.nesAddrAbs (loByte val)
  let s := nesSetflag s .Z (val &&& 0x00FF == 0x0)
  let s := nesSetflag s .N (asBool (val &&& 0x80))
  (s, 0)

def nesDEC (s : Nes) : Nes × U8 :=
  let s := nesFetch s; storeCounted s (s.nesFetched.setWidth 16 - 1)

def nesINC (s : Nes) : Nes × U8 :=
  let s := nesFetch s; storeCounted s (s.nesFetched.setWidth 16 + 1)

-- the decrements of X and Y update N before Z
def nesDEX (s : Nes) : Nes × U8 :=
  let s := { s with X := s.X - 1 }
  let s := nesSetflag s .N (asBool (s.X &&& 0x80))
  let s := nesSetflag s .Z (s.X &&& 0xFF == 0x0)
  (s, 0)

def nesDEY (s : Nes) : Nes × U8 :=
  let s := { s with Y := s.Y - 1 }
  let s := nesSetflag s .N (asBool (s.Y &&& 0x80))
  let s := nesSetflag s .Z (s.Y &&& 0xFF == 0x0)
  (s, 0)

/-- The result of the exclusive or reaches the flags only. -/
def nesEOR (s : Nes) : Nes × U8 :=
  let s := nesFetch s
  let val := s.nesFetched ^^^ s.A
  (setZN s val, 1)

def nesINX (s : Nes) : Nes × U8 :=
  let s := nesFetch s
  let s := { s with X := s.X + 1 }
  let s := nesSetflag s .Z (s.X &&& 0xFF == 0x0)
  let s := nesSetflag s .N (asBool (s.X &&& 0x80))
  (s, 0)

def nesINY (s : Nes) : Nes × U8 :=
  let s := nesFetch s
  let s := { s with Y := s.Y + 1 }
  let s := nesSetflag s .Z (s.Y &&& 0xFF == 0x0)
  let s := nesSetflag s .N (asBool (s.Y &&& 0x80))
  (s, 0)

def nesJMP (s : Nes) : Nes × U8 := ({ s with PC := s.nesAddrAbs }, 0)

def nesJSR (s : Nes) : Nes × U8 :=
  let s := { s with PC := s.PC - 1 }
  let s := nesPush s (hiByte s.PC)
  let s := nesPush s (loByte s.PC)
  ({ s with PC := s.nesAddrAbs }, 0)

def nesLDA (s : Nes) : Nes × U8 :=
  let s := nesFetch s
  let s := { s with A := s.nesFetched }
  (setZN s s.A, 1)

def nesLDX (s : Nes) : Nes × U8 :=
  let s := nesFetch s
  let s := { s with X := s.nesFetched }
  (setZN s s.X, 1)

def nesLDY (s : Nes) : Nes × U8 :=
  let s := nesFetch s
  let s := { s with Y := s.nesFetched }
  (setZN s s.Y, 1)

def nesLSR (s : Nes) : Nes × U8 :=
  let s := nesFetch s
  let s := nesSetflag s .C (asBool (s.nesFetched &&& 0x01))
  let temp := (s.nesFetched >>> 1).setWidth 16
  let s := nesSetflag s .Z (temp &&& 0x00FF == 0x0000)
  let s := nesSetflag s .N (asBool (temp &&& 0x0080))
  (storeShifted s (loByte temp) (loByte temp), 0)

def nesNOP (s : Nes) : Nes × U8 :=
  (s, if s.nesOpcode = 0x1C ∨ s.nesOpcode = 0x3C ∨ s.nesOpcode = 0x5C ∨ s.nesOpcode = 0x7C ∨
      s.nesOpcode = 0xDC ∨ s.nesOpcode = 0xFC then 1 else 0)

def nesORA (s : Nes) : Nes × U8 :=
  let s := nesFetch s
  let s := { s with A := s.A ||| s.nesFetched }
  (setZN s s.A, 1)

def nesPHA (s : Nes) : Nes × U8 := (nesPush s s.A, 0)

def nesPHP (s : Nes) : Nes × U8 :=
  let s := nesPush s s.P
  let s := nesSetflag s .B false
  let s := nesSetflag s .U false
  (s, 0)

def nesPLA (s : Nes) : Nes × U8 :=
  let (s, data) := nesPull s
  let s := { s with A := data }
  (setZN s s.A, 0)

def nesPLP (s : Nes) : Nes × U8 :=
  let (s, data) := nesPull s
  let s := { s with P := data }
  (nesSetflag s .U true, 0)

def nesROL (s : Nes) : Nes × U8 :=
  let s := nesFetch s
  let temp := (s.nesFetched.setWidth 16 <<< 1) ||| ofBool (nesGetflag s .C)
  let s := nesSetflag s .C (asBool (temp &&& 0xFF00))
  let s := nesSetflag s .Z (temp &&& 0x00FF == 0x0000)
  let s := nesSetflag s .N (asBool (temp &&& 0x0080))
  (storeShifted s (loByte temp) (loByte temp), 0)

def nesROR (s : Nes) : Nes × U8 :=
  let s := nesFetch s
  let temp := (ofBool (nesGetflag s .C) <<< 7) ||| (s.nesFetched >>> 1).setWidth 16
  let s := nesSetflag s .C (asBool (s.nesFetched &&& 0x01))
  let s := nesSetflag s .Z (temp &&& 0x00FF == 0x00)
  let s := nesSetflag s .N (asBool (temp &&& 0x0080))
  (storeShifted s (loByte temp) (loByte temp), 0)

/-- Both nes_setflag calls pass a complement, which converts to true. -/
def nesRTI (s : Nes) : Nes × U8 :=
  let (s, data) := nesPull s
  let s := { s with P := data }
  let s := nesSetflag s .B (asBool (~~~NesPFlags.B.mask))
  let s := nesSetflag s .U (asBool (~~~NesPFlags.U.mask))
  let (s, lo) := nesPull s
  let (s, hi) := nesPull s
  ({ s with PC := wordOf lo hi }, 0)

def nesRTS (s : Nes) : Nes × U8 :=
  let (s, lo) := nesPull s
  let (s, hi) := nesPull s
  ({ s with PC := wordOf lo hi + 1 }, 0)

def nesSEC (s : Nes) : Nes × U8 := (nesSetflag s .C true, 0)
def nesSED (s : Nes) : Nes × U8 := (nesSetflag s .D true, 0)
def nesSEI (s : Nes) : Nes × U8 := (nesSetflag s .I true, 0)

def nesSTA (s : Nes) : Nes × U8 := (nesCpuWrite s s.nesAddrAbs s.A, 0)
def nesSTX (s : Nes) : Nes × U8 := (nesCpuWrite s s.nesAddrAbs s.X, 0)
def nesSTY (s : Nes) : Nes × U8 := (nesCpuWrite s s.nesAddrAbs s.Y, 0)

def nesTAX (s : Nes) : Nes × U8 :=
  let s := { s with X := s.A }
  -- the tests for zero and for the sign are exchanged in the source
  let s := nesSetflag s .N (s.X == 0x0)
  let s := nesSetflag s .Z (asBool (s.X &&& 0x80))
  (s, 0)

def nesTAY (s : Nes) : Nes × U8 := (setZN { s with Y := s.A } s.A, 0)
def nesTSX (s : Nes) : Nes × U8 := (setZN { s with X := s.SP } s.SP, 0)
def nesTXA (s : Nes) : Nes × U8 := (setZN { s with A := s.X } s.X, 0)
def nesTXS (s : Nes) : Nes × U8 := ({ s with SP := s.X }, 0)
def nesTYA (s : Nes) : Nes × U8 := (setZN { s with A := s.Y } s.Y, 0)

def nesBIT (s : Nes) : Nes × U8 :=
  let s := nesFetch s
  let val := s.A &&& s.nesFetched
  let s := nesSetflag s .Z (val == 0)
  let s := nesSetflag s .N (asBool (s.nesFetched &&& (1#8 <<< 7)))
  let s := nesSetflag s .V (asBool (s.nesFetched &&& (1#8 <<< 6)))
  (s, 0)

-- only prints a message
def nesUDF (s : Nes) : Nes × U8 := (s, 0)

def operate : NesOp → Nes → Nes × U8
  | .UDF => nesUDF
  | .ADC => nesADC | .AND => nesAND | .ASL => nesASL | .BCC => nesBCC
  | .BCS => nesBCS | .BEQ => nesBEQ | .BIT => nesBIT | .BMI => nesBMI
  | .BNE => nesBNE | .BPL => nesBPL | .BRK => nesBRK | .BVC => nesBVC
  | .BVS => nesBVS | .CLC => nesCLC | .CLD => nesCLD | .CLI => nesCLI
  | .CLV => nesCLV | .CMP => nesCMP | .CPX => nesCPX | .CPY => nesCPY
  | .DEC => nesDEC | .DEX => nesDEX | .DEY => nesDEY | .EOR => nesEOR
  | .INC => nesINC | .INX => nesINX | .INY => nesINY | .JMP => nesJMP
  | .JSR => nesJSR | .LDA => nesLDA | .LDX => nesLDX | .LDY => nesLDY
  | .LSR => nesLSR | .NOP => nesNOP | .ORA => nesORA | .PHA => nesPHA
  | .PHP => nesPHP | .PLA => nesPLA | .PLP => nesPLP | .ROL => nesROL
  | .ROR => nesROR | .RTI => nesRTI | .RTS => nesRTS | .SBC => nesSBC
  | .SEC => nesSEC | .SED => nesSED | .SEI => nesSEI | .STA => nesSTA
  | .STX => nesSTX | .STY => nesSTY | .TAX => nesTAX | .TAY => nesTAY
  | .TSX => nesTSX | .TXA => nesTXA | .TXS => nesTXS | .TYA => nesTYA

def operand (s : Nes) : U8 :=
  if (nesInstruction s.nesOpcode).addrMode = .IMP then s.nesFetched
  else nesCpuRead s s.nesAddrAbs false

theorem nesFetch_eq (s : Nes) : nesFetch s = { s with nesFetched := operand s } := by
  unfold nesFetch operand
  split <;> simp_all

theorem storeShifted_eq (s : Nes) (a r : U8) : storeShifted s a r = { s with
    A := if (nesInstruction s.nesOpcode).addrMode = .IMP then a else s.A
    nesCpuRam := if (nesInstruction s.nesOpcode).addrMode = .IMP then s.nesCpuRam
      else ramWrite s.nesCpuRam s.nesAddrAbs r } := by
  rw [storeShifted, nesCpuWrite_eq]
  split <;> rfl

theorem branch_eq (s : Nes) (taken : Bool) : (branch s taken).1 =
    if taken then { s with
      PC := s.PC + s.nesAddrRel
      nesAddrAbs := s.PC + s.nesAddrRel
      nesCycles := s.nesCycles + 1 +
        if (s.PC + s.nesAddrRel) &&& 0xFF00 ≠ s.PC &&& 0xFF00 then 1 else 0 }
    else s := by
  cases taken with
  | false => rfl
  | true =>
      simp only [branch, if_true]
      split <;> simp

end MetalNes.NesOperations
