import MetalNes.BranchLaws
import MetalNes.NesDissasembly
import MetalNes.Observations

namespace MetalNes.InstructionBoundaries

open NesBus NesTable NesAddressing NesOperations NesClock NesDissasembly BusAccess BranchLaws Observations

/-- The instructions that set PC themselves. -/
def leaving : List NesOp := branches ++ [.BRK, .JMP, .JSR, .RTS, .RTI]

theorem addressing_PC (m : NesAddrMode) (s : Nes) :
    (addressing m s).1.PC = s.PC + BitVec.ofNat 16 (operandBytes m) := by
  have htwo : s.PC + 1 + 1 = s.PC + BitVec.ofNat 16 2 := BitVec.add_assoc s.PC 1 1
  cases m with
  | IMP => exact (BitVec.add_zero s.PC).symm
  | IMM | ZP0 | ZPX | ZPY | REL | IZX | IZY => rfl
  | ABS | ABX | ABY | IND => exact htwo

theorem operate_PC {op : NesOp} (h : op ∉ leaving) (s : Nes) : (operate op s).1.PC = s.PC := by
  cases op with
  | BCC | BCS | BEQ | BMI | BNE | BPL | BVC | BVS | BRK | JMP | JSR | RTS | RTI =>
      exact absurd (by decide) h
  | ADC | SBC | AND | ORA | EOR | LDA | LDX | LDY | CMP | CPX | CPY | BIT | INX | INY =>
      simp only [operate, nesADC, nesSBC, nesAND, nesORA, nesEOR, nesLDA, nesLDX, nesLDY, nesCMP,
        nesCPX, nesCPY, nesBIT, nesINX, nesINY, nesFetch_eq]
      rfl
  | STA | STX | STY =>
      simp only [operate, nesSTA, nesSTX, nesSTY, nesCpuWrite_eq]
  | DEC | INC =>
      simp only [operate, nesDEC, nesINC, storeCounted, nesFetch_eq, nesCpuWrite_eq]
      rfl
  | ASL | LSR | ROL | ROR =>
      simp only [operate, nesASL, nesLSR, nesROL, nesROR, nesFetch_eq, storeShifted_eq]
      rfl
  | PHA => simp only [operate, nesPHA, nesPush_eq]
  | PHP =>
      simp only [operate, nesPHP, nesPush_eq]
      rfl
  | _ => rfl

def fetchedPC (s : Nes) : Option U16 := if s.nesCycles = 0 then some s.PC else none

/-- The values of PC at the opcodes that a number of clocks fetches. -/
def fetches (clocks : Nat) (s : Nes) : List U16 := observed nesClock fetchedPC clocks s

/-- The first instructions of the walk are in the ROM and leave PC to the addressing mode. -/
def Straight (s : Nes) (n : Nat) : Prop :=
  ∀ i < n, 0x8000 ≤ (displayed s i).addr ∧
    (nesInstruction (nesCpuRead s (displayed s i).addr true)).operation ∉ leaving

instance (s : Nes) (n : Nat) : Decidable (Straight s n) :=
  inferInstanceAs (Decidable (∀ i < n, _ ∧ _))

section Round

variable {s t : Nes} (hcart : t.nesLoadedCart = s.nesLoadedCart)

include hcart

theorem opcode_eq (hrom : 0x8000 ≤ t.PC) : nesCpuRead t t.PC false = nesCpuRead s t.PC true := by
  rw [nesCpuRead_rom t hrom, nesCpuRead_rom s hrom, hcart]

theorem nesClock_nextAddr (hstart : t.nesCycles = 0) (hrom : 0x8000 ≤ t.PC)
    (hop : (nesInstruction (nesCpuRead s t.PC true)).operation ∉ leaving) :
    (nesClock t).PC = nextAddr s t.PC := by
  have hopcode := opcode_eq hcart hrom
  rw [nesClock_PC hstart, performed_of_opcode hopcode, operate_PC hop, addressed_of_opcode hopcode, addressing_PC]
  rfl

end Round

theorem fetches_idle (s : Nes) : fetches s.nesCycles.toNat s = [] := by
  refine observed_quiet fun i hi => ?_
  have hlt := s.nesCycles.isLt
  rw [iterate_nesClock_idle s i hi.le]
  refine if_neg fun hzero => ?_
  have hnat := congrArg BitVec.toNat hzero
  simp only [BitVec.toNat_sub, BitVec.toNat_ofNat] at hnat
  simp at hnat
  omega

/-- The clocks to the next opcode fetch that clock included show its PC. -/
theorem fetches_next (s : Nes) : fetches (s.nesCycles.toNat + 1) s = [s.PC] := by
  rw [fetches, observed_add, ← fetches, fetches_idle, List.nil_append, ← settle, settle_eq]
  rfl

/-- A state of the run from which the instruction at an address is fetched next. -/
def Before (s t : Nes) (addr : U16) : Prop := t.PC = addr ∧ t.nesLoadedCart = s.nesLoadedCart

theorem fetches_round {s t : Nes} {addr : U16} (ht : Before s t addr) (hrom : 0x8000 ≤ addr)
    (hop : (nesInstruction (nesCpuRead s addr true)).operation ∉ leaving) :
    ∃ k, fetches k t = [addr] ∧ Before s (nesClock^[k] t) (nextAddr s addr) := by
  obtain ⟨rfl, hcart⟩ := ht
  refine ⟨t.nesCycles.toNat + 1, fetches_next t, ?_, ?_⟩
  · have hsettled : nesClock^[t.nesCycles.toNat] t = { t with nesCycles := 0 } := settle_eq t
    rw [Function.iterate_succ_apply', hsettled]
    exact nesClock_nextAddr hcart rfl hrom hop
  · rw [iterate_nesClock_nesLoadedCart, hcart]

/-- For every number of instructions: the passes of the walk start where nes_clock
fetches opcodes, one after the other. -/
theorem walk_fetches (s : Nes) (n : Nat) (h : Straight s n) :
    ∃ clocks, fetches clocks s = (List.range (n + 1)).map fun i => (displayed s i).addr := by
  simp only [Straight, displayed_addr] at h ⊢
  have hround : ∀ i < n, ∀ t, Before s t ((nextAddr s)^[i] s.PC) →
      ∃ k, fetches k t = [(nextAddr s)^[i] s.PC] ∧ Before s (nesClock^[k] t) ((nextAddr s)^[i + 1] s.PC) := by
    intro i hi t ht
    rw [Function.iterate_succ_apply']
    exact fetches_round ht (h i hi).1 (h i hi).2
  obtain ⟨k, hk, hPC, -⟩ := observed_rounds hround ⟨rfl, rfl⟩
  refine ⟨k + ((nesClock^[k] s).nesCycles.toNat + 1), ?_⟩
  rw [fetches, observed_add, hk, ← fetches, fetches_next, hPC, List.range_succ, List.map_append]
  rfl

def romProgram : Nes :=
  let code : List U8 := [0xA9, 0x01, 0x85, 0x10, 0xE8]
  { zeroMachine ⟨fun i => code.getD i 0, 16384, fun _ => 0, 8192, 0, 1, 1, .zero⟩ with PC := 0x8000 }

theorem romProgram_walk : ∃ clocks, fetches clocks romProgram = [0x8000, 0x8002, 0x8004, 0x8005] := by
  have hfetches := walk_fetches romProgram 3 (by decide +kernel)
  have hwalk : ((List.range 4).map fun i => (displayed romProgram i).addr) =
      [0x8000, 0x8002, 0x8004, 0x8005] := by decide +kernel
  rwa [hwalk] at hfetches

end MetalNes.InstructionBoundaries
