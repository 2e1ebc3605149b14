import MetalNes.NesClock
import MetalNes.NesEffects

namespace MetalNes.FlagFrame

open NesBus NesTable NesAddressing NesOperations NesClock FlagWrites Documented NesEffects

/-- Instructions whose handlers make no clearing nes_setflag call. -/
def neverClears : NesOp → Bool
  | .BCC | .BCS | .BEQ | .BMI | .BNE | .BPL | .BVC | .BVS | .JMP | .JSR | .RTS | .NOP | .UDF
  | .STA | .STX | .STY | .PHA | .TXS | .SEC | .SED | .SEI | .PLP | .RTI => true
  | _ => false

def bitSetsAll (A m : U8) : Bool := A &&& m == 0 && m.getLsbD 7 && m.getLsbD 6

theorem zn_all (r : U8) : (zn r).all (·.2) = false := by
  have h := zero_and_sign r
  rw [← asBool_bit7] at h
  simpa only [zn, List.all_cons, List.all_nil, Bool.and_true] using h

theorem znWord_all (val : U16) : (znWord val).all (·.2) = false := by
  rw [znWord_eq, zn_all]

/-- Only a BIT comparison can set every flag it writes; all other handlers that
write a computed flag clear one of them. -/
theorem flagWrites_all (s : Nes) (op : NesOp) :
    (flagWrites s op).all (·.2) =
      (neverClears op || (op == .BIT && bitSetsAll s.A (operand s))) := by
  cases op with
  | AND | ORA | EOR | LDA | LDX | LDY | TAY | TSX | TXA | TYA | PLA => exact zn_all _
  | INC | DEC => exact znWord_all _
  | CMP | CPX | CPY | LSR | ROL | ROR =>
      simp only [flagWrites, compareWrites, List.all_cons, znWord_all, Bool.and_false]
      rfl
  | ASL =>
      simp only [flagWrites, List.all_append, znWord_all, Bool.false_and]
      rfl
  | INX | INY =>
      simp only [flagWrites, and_255]
      exact zn_all _
  | DEX | DEY =>
      simp only [flagWrites, and_255, List.all_cons, List.all_nil, Bool.and_true]
      rw [Bool.and_comm, asBool_bit7]
      exact zero_and_sign _
  | TAX =>
      simp only [flagWrites, List.all_cons, List.all_nil, Bool.and_true, asBool_bit7]
      exact zero_and_sign _
  | BIT =>
      have h7 : 1#8 <<< 7 = (0x80 : U8) := rfl
      have h6 : 1#8 <<< 6 = (0x40 : U8) := rfl
      simp only [flagWrites, h7, h6, List.all_cons, List.all_nil, Bool.and_true]
      rw [asBool_bit7, asBool_bit6, ← Bool.and_assoc]
      rfl
  | ADC => simp [flagWrites, asBool, neverClears]
  | SBC =>
      simp only [flagWrites, List.all_cons, List.all_nil, Bool.and_true, word_and_eq_zero,
        asBool_word_bit7]
      have h := zero_and_sign (loByte (s.A.setWidth 16 + ((operand s).setWidth 16 ^^^ 0x00FF) +
        ofBool (nesGetflag s .C)))
      simp only [Bool.and_eq_false_iff] at h
      rcases h with h | h <;> rw [h] <;> simp [neverClears]
  | _ => rfl

/-- The calls of an instruction name only flags it is documented to change, or
the two flags no program observes. -/
theorem flagWrites_named (s : Nes) (op : NesOp) :
    ∀ w ∈ flagWrites s op, w.1 ∈ affected op ∨ w.1 = .B ∨ w.1 = .U := by
  cases op <;> simp [flagWrites, affected, zn, znWord, compareWrites]

theorem programFlags_ne_U {f : NesPFlags} (hf : f ∈ programFlags) : f ≠ .U ∧ f ≠ .B := by
  revert f
  decide

theorem not_untouched_load (f : NesPFlags) : ¬ Untouched .PLP f ∧ ¬ Untouched .RTI f := by
  cases f <;> decide

/-- An untouched flag survives the instruction exactly when all calls of its
handler set their flags, or the flag was clear. -/
theorem nesClock_untouched {s : Nes} (h : s.nesCycles = 0) {op : NesOp}
    (hop : (nesInstruction (nesCpuRead s s.PC false)).operation = op) {f : NesPFlags}
    (hf : Untouched op f) :
    getflag (nesClock s).P f = ((flagWrites (addressed s) op).all (·.2) && getflag s.P f) := by
  have hU := programFlags_ne_U hf.1
  have hunnamed : ∀ w ∈ flagWrites (addressed s) op, w.1 ≠ f := by
    rintro w hw rfl
    rcases flagWrites_named _ op w hw with ha | hb | hu
    · exact hf.2 ha
    · exact hU.2 hb
    · exact hU.1 hu
  have hplp : op ≠ .PLP := by
    rintro rfl
    exact (not_untouched_load f).1 hf
  have hrti : op ≠ .RTI := by
    rintro rfl
    exact (not_untouched_load f).2 hf
  rw [nesClock_P h, performed, hop, (operate_effect op _).P hplp hrti,
    getflag_setflag_of_ne _ hU.1.symm, Bool.true_and, getflag_applyWrites_unnamed hunnamed,
    addressed_P, getflag_setflag_of_ne _ hU.1.symm, Bool.true_and]

/-- The byte a BIT instruction at PC compares, found from the state before it. -/
def bitOperand (s : Nes) (mode : NesAddrMode) : U8 :=
  let lo := nesCpuRead s (s.PC + 1) false
  let hi := nesCpuRead s (s.PC + 1 + 1) false
  nesCpuRead s (if mode = .ZP0 then lo.setWidth 16 else wordOf lo hi) false

theorem documented_bit : ∀ r ∈ documented, r.op = .BIT → r.mode = .ZP0 ∨ r.mode = .ABS := by
  decide +kernel

theorem operand_bit {s : Nes} {r : Row} (hr : r ∈ documented)
    (hop : nesCpuRead s s.PC false = r.opcode) (hbit : r.op = .BIT) :
    operand (addressed s) = bitOperand s r.mode := by
  obtain ⟨-, -, hmode⟩ := documented_table r hr
  rw [if_neg (by rw [hbit]; decide)] at hmode
  have hne : (nesInstruction (addressed s).nesOpcode).addrMode = r.mode := by
    rw [addressed_of_opcode hop, addressing_nesOpcode, ← hmode, ← hop]
    rfl
  have haddr : addressed s = (addressing r.mode (fetchOpcode s)).1 := by
    rw [addressed_of_opcode hop, hmode]
  rcases documented_bit r hr hbit with hm | hm
  · rw [operand, hne, hm, if_neg (by decide), haddr, hm]
    simp only [addressing, nesZP0, setWidth_and_255]
    rfl
  · rw [operand, hne, hm, if_neg (by decide), haddr, hm]
    rfl

def FrameLaw (op : NesOp) (s : Nes) : Prop :=
  ∀ f, Untouched op f → getflag (nesClock s).P f = getflag s.P f

/-- The states in which the frame law survives: the handler never clears a flag,
or it is a BIT that sets all its flags, or there is nothing to lose. -/
def FrameCondition (r : Row) (s : Nes) : Prop :=
  neverClears r.op = true ∨ (r.op = .BIT ∧ bitSetsAll s.A (bitOperand s r.mode) = true) ∨
    ∀ f, Untouched r.op f → getflag s.P f = false

theorem flagWrites_all_iff {s : Nes} {r : Row} (hr : r ∈ documented)
    (hop : nesCpuRead s s.PC false = r.opcode) :
    (flagWrites (addressed s) r.op).all (·.2) = true ↔
      neverClears r.op = true ∨ (r.op = .BIT ∧ bitSetsAll s.A (bitOperand s r.mode) = true) := by
  rw [flagWrites_all, addressed_A, Bool.or_eq_true, Bool.and_eq_true, beq_iff_eq]
  refine or_congr_right (and_congr_right fun hbit => ?_)
  rw [operand_bit hr hop hbit]

theorem frameLaw_iff (s : Nes) (h : s.nesCycles = 0) (r : Row) (hr : r ∈ documented)
    (hop : nesCpuRead s s.PC false = r.opcode) : FrameLaw r.op s ↔ FrameCondition r s := by
  have hrow : (nesInstruction (nesCpuRead s s.PC false)).operation = r.op := by
    rw [hop]
    exact (documented_table r hr).1
  rw [FrameCondition, ← or_assoc, ← flagWrites_all_iff hr hop]
  constructor
  · intro hlaw
    refine or_iff_not_imp_left.mpr fun hall f hf => ?_
    have hkeep := hlaw f hf
    rw [nesClock_untouched h hrow hf, eq_false_of_ne_true hall, Bool.false_and] at hkeep
    exact hkeep.symm
  · rintro (hall | hclear) f hf
    · rw [nesClock_untouched h hrow hf, hall, Bool.true_and]
    · rw [nesClock_untouched h hrow hf, hclear f hf, Bool.and_false]

def bitMachine : Nes :=
  { ramMachine [0x2C, 0x03, 0x02, 0xC0] with P := 0xFF }

theorem frameLaw_bitMachine : FrameLaw .BIT bitMachine :=
  (frameLaw_iff bitMachine rfl ⟨.BIT, .ABS, 0x2C, 4⟩ (by decide +kernel) (by decide +kernel)).mpr
    (.inr (.inl ⟨rfl, by decide +kernel⟩))

def carryLoad : Nes := { ramMachine [0xA9, 0x01] with P := 0x21 }

theorem carryLoad_clears_carry :
    carryLoad.nesCycles = 0 ∧ nesCpuRead carryLoad carryLoad.PC false = 0xA9 ∧
      ⟨.LDA, .IMM, 0xA9, 2⟩ ∈ documented ∧ ¬ FrameLaw .LDA carryLoad := by
  refine ⟨rfl, by decide +kernel, by decide +kernel, fun h => ?_⟩
  have hc := h .C (by decide)
  revert hc
  decide +kernel

end MetalNes.FlagFrame
