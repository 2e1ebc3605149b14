import MetalNes.NesBus
import MetalNes.NesTable

namespace MetalNes.NesDissasembly

open NesBus NesTable

/-- The text of an unsigned integer under %X. -/
def hexText (value : Nat) : String := String.ofList ((Nat.toDigits 16 value).map Char.toUpper)

def operandText (ins : Instruction) (value : Nat) (suffix : String) : String :=
  "$" ++ ins.name ++ " " ++ hexText value ++ " " ++ suffix

def byteBranch (s : Nes) (addr : U16) (ins : Instruction) (suffix : String) : U16 × String :=
  let value := nesCpuRead s addr true
  (addr + 1, operandText ins value.toNat suffix)

def wordBranch (s : Nes) (addr : U16) (ins : Instruction) (suffix : String) : U16 × String :=
  let valuelo := nesCpuRead s addr true
  let valuehi := nesCpuRead s (addr + 1) true
  (addr + 1 + 1, operandText ins (wordOf valuelo valuehi).toNat suffix)

/-- The branch that the addressing mode of the instruction selects, with addr behind the
opcode. The absolute mode prints the name of the relative one. -/
def modeBranch (s : Nes) (addr : U16) (ins : Instruction) : U16 × String :=
  match ins.addrMode with
  | .IMP => (addr, "$" ++ ins.name ++ " " ++ "{IMP}")
  | .IMM => byteBranch s addr ins "{IMM}"
  | .ZP0 => byteBranch s addr ins "{ZP0}"
  | .ZPX => byteBranch s addr ins "{ZPX}"
  | .ZPY => byteBranch s addr ins "{ZPY}"
  | .REL => byteBranch s addr ins "{REL}"
  | .ABS => wordBranch s addr ins "{REL}"
  | .ABX => wordBranch s addr ins "X {ABX}"
  | .ABY => wordBranch s addr ins "Y {ABY}"
  | .IND => wordBranch s addr ins "{IND}"
  | .IZX => byteBranch s addr ins "X {IZX}"
  | .IZY => byteBranch s addr ins "Y {IZY}"

/-- The variables of nes_dissasemble_display. The pointer disstr is an offset in the
block that malloc returns. -/
structure Display where
  addr : U16
  x : Nat
  y : Nat
  disstr : Nat

structure ConsoleLine where
  x : Nat
  y : Nat
  text : String
  deriving DecidableEq, Repr

def displayStart (s : Nes) : Display where
  addr := s.PC
  x := 256 + 32
  y := 64
  disstr := 0

def displayPass (s : Nes) (d : Display) : Display × ConsoleLine :=
  let opcode := nesCpuRead s d.addr true
  let ins := nesInstruction opcode
  let (addr, text) := modeBranch s (d.addr + 1) ins
  -- the pointer moves behind the name and does not come back
  ({ d with addr, disstr := d.disstr + (ins.name.length + 1), y := d.y + 12 }, ⟨d.x, d.y, text⟩)

def displayLines (s : Nes) : Nat → Display → Display × List ConsoleLine
  | 0, d => (d, [])
  | n + 1, d =>
      let (d, line) := displayPass s d
      let (d, lines) := displayLines s n d
      (d, line :: lines)

/-- The lines of the view, and the offset of the pointer that is freed. -/
def nesDissasembleDisplay (s : Nes) : List ConsoleLine × Nat :=
  let (d, lines) := displayLines s 10 (displayStart s)
  (lines, d.disstr)

def operandBytes : NesAddrMode → Nat
  | .IMP => 0
  | .ABS | .ABX | .ABY | .IND => 2
  | _ => 1

theorem modeBranch_fst (s : Nes) (addr : U16) (ins : Instruction) :
    (modeBranch s addr ins).1 = addr + BitVec.ofNat 16 (operandBytes ins.addrMode) := by
  have htwo : addr + 1 + 1 = addr + BitVec.ofNat 16 2 := BitVec.add_assoc addr 1 1
  rw [modeBranch]
  cases ins.addrMode with
  | IMP => exact (BitVec.add_zero addr).symm
  | IMM | ZP0 | ZPX | ZPY | REL | IZX | IZY => rfl
  | ABS | ABX | ABY | IND => exact htwo

def nextAddr (s : Nes) (addr : U16) : U16 :=
  addr + 1 + BitVec.ofNat 16 (operandBytes (nesInstruction (nesCpuRead s addr true)).addrMode)

theorem displayPass_addr (s : Nes) (d : Display) : (displayPass s d).1.addr = nextAddr s d.addr :=
  modeBranch_fst s (d.addr + 1) _

/-- The variables at the start of the passes, were there more of them than ten. -/
def displayed (s : Nes) (n : Nat) : Display := (fun d => (displayPass s d).1)^[n] (displayStart s)

theorem displayLines_fst (s : Nes) (n : Nat) (d : Display) :
    (displayLines s n d).1 = (fun d => (displayPass s d).1)^[n] d := by
  induction n generalizing d with
  | zero => rfl
  | succ n ih => exact ih (displayPass s d).1

theorem nesDissasembleDisplay_freed (s : Nes) :
    (nesDissasembleDisplay s).2 = (displayed s 10).disstr := by
  rw [displayed, ← displayLines_fst, nesDissasembleDisplay]

theorem displayed_addr (s : Nes) (n : Nat) : (displayed s n).addr = (nextAddr s)^[n] s.PC := by
  induction n with
  | zero => rfl
  | succ n ih =>
      rw [displayed, Function.iterate_succ_apply', displayPass_addr, ← displayed, ih,
        Function.iterate_succ_apply']

end MetalNes.NesDissasembly
