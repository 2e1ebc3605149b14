import MetalNes.NesClock
import MetalNes.NesEffects

namespace MetalNes.ResultFlags

open NesBus NesTable NesOperations NesClock FlagWrites NesEffects

def resultOps : List NesOp :=
  [.LDA, .LDX, .LDY, .AND, .ORA, .EOR, .INC, .DEC, .INX, .INY, .DEX, .DEY, .TAX, .TAY, .TXA, .TYA,
    .TSX, .PLA, .ASL, .LSR, .ROL, .ROR]

def carryByte (s : Nes) : U8 := if nesGetflag s .C then 1 else 0

/-- The documented result of an instruction on its operand, independent of what
the handler stores. -/
def result (s : Nes) : NesOp → U8
  | .AND => s.A &&& operand s
  | .ORA => s.A ||| operand s
  | .EOR => s.A ^^^ operand s
  | .INC => operand s + 1
  | .DEC => operand s - 1
  | .INX => s.X + 1
  | .INY => s.Y + 1
  | .DEX => s.X - 1
  | .DEY => s.Y - 1
  | .TAX | .TAY => s.A
  | .TXA => s.X
  | .TYA => s.Y
  | .TSX => s.SP
  | .PLA => (nesPull s).2
  | .ASL => operand s <<< 1
  | .LSR => operand s >>> 1
  | .ROL => (operand s <<< 1) ||| carryByte s
  | .ROR => (carryByte s <<< 7) ||| (operand s >>> 1)
  | _ => operand s

def Reports (P r : U8) : Prop := (getflag P .Z = true ↔ r = 0) ∧ getflag P .N = r.getLsbD 7

def ResultLaw (op : NesOp) (s : Nes) : Prop := Reports (operate op s).1.P (result s op)

/-- When the flags come out right, in terms of the result and the flags before.
Writing N after Z spoils a zero result, and lets a stale Z show beside a negative
one; the other orders fail elsewhere. -/
def ResultCondition (op : NesOp) (s : Nes) : Prop :=
  let r := result s op
  let Z := getflag s.P .Z
  match op with
  | .DEX | .DEY => r.getLsbD 7 = false ∧ (r = 0 → getflag s.P .N = false)
  | .TAX => r.getLsbD 7 = false ∧ (r = 0 → Z = true)
  | .ASL => r ≠ 0 ∧ (r.getLsbD 7 = true → (operand s).getLsbD 7 = true ∧ Z = false)
  | .LSR => r ≠ 0
  | .ROL => r ≠ 0 ∧ (r.getLsbD 7 = true → (operand s).getLsbD 7 = true → Z = false)
  | .ROR => r ≠ 0 ∧ (r.getLsbD 7 = true → (operand s).getLsbD 0 = true → Z = false)
  | _ => r ≠ 0 ∧ (r.getLsbD 7 = true → Z = false)

theorem reports_iff (P r : U8) :
    Reports P r ↔ getflag P .Z = (r == 0) ∧ getflag P .N = r.getLsbD 7 := by
  have hz : (getflag P .Z = true ↔ r = 0) ↔ getflag P .Z = (r == 0) := by
    rw [Bool.eq_iff_iff (b := r == 0), beq_iff_eq]
  rw [Reports, hz]

theorem eq_zero_iff (r : U8) : r = 0 ↔ (r == 0) = true := beq_iff_eq.symm

/-- The first write shows only as far as the second one lets it. -/
theorem getflag_written (P : U8) {f g : NesPFlags} (h : f ≠ g) (x y : Bool) :
    getflag (applyWrites P [(f, x), (g, y)]) f = (y && (x || getflag P f)) ∧
      getflag (applyWrites P [(f, x), (g, y)]) g = (y || x && getflag P g) := by
  have hwrites : applyWrites P [(f, x), (g, y)] = setflag (setflag P f x) g y := rfl
  constructor
  · rw [hwrites, getflag_setflag_of_ne _ h.symm, getflag_setflag_self]
  · rw [hwrites, getflag_setflag_self, getflag_setflag_of_ne _ h]

/-- What can be said of a result's flags and the old ones can be checked on bits. -/
theorem flags_cases {p : Bool → Bool → Bool → Bool → Prop}
    (h : ∀ z n Z N, (z && n) = false → p z n Z N) (P r : U8) :
    p (r == 0) (r.getLsbD 7) (getflag P .Z) (getflag P .N) :=
  h _ _ _ _ (zero_and_sign r)

theorem reports_zn (P r : U8) :
    Reports (applyWrites P (zn r)) r ↔ r ≠ 0 ∧ (r.getLsbD 7 = true → getflag P .Z = false) := by
  obtain ⟨hZ, hN⟩ := getflag_written P (by decide : NesPFlags.Z ≠ .N) (r == 0x0) (asBool (r &&& 0x80))
  rw [zn, reports_iff, hZ, hN, asBool_bit7, ne_eq, eq_zero_iff]
  exact flags_cases (p := fun z n Z N => ((n && (z || Z)) = z ∧ (n || z && N) = n) ↔
    ¬ z = true ∧ (n = true → Z = false)) (by decide) P r

theorem reports_nz (P r : U8) :
    Reports (applyWrites P [(.N, asBool (r &&& 0x80)), (.Z, r == 0x0)]) r ↔
      r.getLsbD 7 = false ∧ (r = 0 → getflag P .N = false) := by
  obtain ⟨hN, hZ⟩ := getflag_written P (by decide : NesPFlags.N ≠ .Z) (asBool (r &&& 0x80)) (r == 0x0)
  rw [reports_iff, hZ, hN, asBool_bit7, eq_zero_iff]
  exact flags_cases (p := fun z n Z N => ((z || n && Z) = z ∧ (z && (n || N)) = n) ↔
    n = false ∧ (z = true → N = false)) (by decide) P r

theorem reports_exchanged (P r : U8) :
    Reports (applyWrites P [(.N, r == 0x0), (.Z, asBool (r &&& 0x80))]) r ↔
      r.getLsbD 7 = false ∧ (r = 0 → getflag P .Z = true) := by
  obtain ⟨hN, hZ⟩ := getflag_written P (by decide : NesPFlags.N ≠ .Z) (r == 0x0) (asBool (r &&& 0x80))
  rw [reports_iff, hZ, hN, asBool_bit7, eq_zero_iff]
  exact flags_cases (p := fun z n Z N => ((n || z && Z) = z ∧ (n && (z || N)) = n) ↔
    n = false ∧ (z = true → Z = true)) (by decide) P r

/-- A carry written first decides whether the old Z survives until the sign. -/
theorem reports_carry_zn (P r : U8) (c : Bool) :
    Reports (applyWrites P ((.C, c) :: zn r)) r ↔
      r ≠ 0 ∧ (r.getLsbD 7 = true → c = true → getflag P .Z = false) := by
  have hstep : applyWrites P ((.C, c) :: zn r) = applyWrites (setflag P .C c) (zn r) := rfl
  rw [hstep, reports_zn, getflag_setflag_of_ne P (by decide)]
  cases c <;> simp

/-- A carry written last has to be set, or it takes a set sign away again. -/
theorem reports_zn_carry (P r : U8) (c : Bool) :
    Reports (applyWrites P (zn r ++ [(.C, c)])) r ↔
      r ≠ 0 ∧ (r.getLsbD 7 = true → c = true ∧ getflag P .Z = false) := by
  have hz := zero_and_sign r
  rw [reports_iff, ne_eq, eq_zero_iff]
  simp only [applyWrites, zn, List.cons_append, List.nil_append, List.foldl_cons, List.foldl_nil,
    asBool_bit7, getflag_setflag, reduceCtorEq, if_false, if_true]
  revert hz
  generalize (r == 0) = z, r.getLsbD 7 = n, getflag P .Z = Z, getflag P .N = N
  revert c z n Z N
  decide

section Words

theorem loByte_succ (m : U8) : loByte (m.setWidth 16 + 1) = m + 1 := by
  unfold loByte
  bv_omega

theorem loByte_pred (m : U8) : loByte (m.setWidth 16 - 1) = m - 1 := by
  unfold loByte
  bv_omega

theorem loByte_setWidth (m : U8) : loByte (m.setWidth 16) = m := by
  unfold loByte
  bv_omega

theorem loByte_shiftLeft (m : U8) : loByte (m.setWidth 16 <<< 1) = m <<< 1 := by
  unfold loByte
  bv_omega

theorem carry_shiftLeft (m : U8) :
    decide (m.setWidth 16 <<< 1 &&& (0xFF00 : U16) > 0) = m.getLsbD 7 := by
  have hm := m.isLt
  rw [BitVec.getLsbD, Nat.testBit_eq_decide_div_mod_eq, decide_eq_decide, and_page_pos_iff]
  bv_omega

theorem loByte_rotateLeft (m : U8) (c : Bool) :
    loByte ((m.setWidth 16 <<< 1) ||| ofBool c) = (m <<< 1) ||| if c then 1 else 0 := by
  rw [loByte, BitVec.setWidth_or, ← loByte, loByte_shiftLeft]
  cases c <;> rfl

theorem carry_rotateLeft (m : U8) (c : Bool) :
    asBool (((m.setWidth 16 <<< 1) ||| ofBool c) &&& (0xFF00 : U16)) = m.getLsbD 7 := by
  revert c m
  decide +kernel

theorem loByte_rotateRight (m : U8) (c : Bool) :
    loByte ((ofBool c <<< 7) ||| (m >>> 1).setWidth 16) =
      ((if c then 1 else 0 : U8) <<< 7) ||| (m >>> 1) := by
  rw [loByte, BitVec.setWidth_or, ← loByte, ← loByte, loByte_setWidth]
  cases c <;> rfl

theorem sign_shiftRight (m : U8) : (m >>> 1).getLsbD 7 = false := by
  simp

end Words

/-- The N and Z flags report the documented result exactly under the condition
above, for each of the instructions and in every state. -/
theorem resultLaw_iff (s : Nes) (op : NesOp) (h : op ∈ resultOps) :
    ResultLaw op s ↔ ResultCondition op s := by
  rw [ResultLaw, operate_P (by decide) h]
  simp only [resultOps, List.mem_cons, List.not_mem_nil, or_false] at h
  cases op with
  | LDA | LDX | LDY | AND | ORA | TAY | TXA | TYA | TSX | PLA => exact reports_zn _ _
  | EOR =>
      simp only [flagWrites, BitVec.xor_comm (operand s)]
      exact reports_zn _ _
  | INX | INY =>
      simp only [flagWrites, and_255]
      exact reports_zn _ _
  | DEX | DEY =>
      simp only [flagWrites, and_255]
      exact reports_nz _ _
  | TAX => exact reports_exchanged _ _
  | INC =>
      simp only [flagWrites, znWord_eq, loByte_succ]
      exact reports_zn _ _
  | DEC =>
      simp only [flagWrites, znWord_eq, loByte_pred]
      exact reports_zn _ _
  | ASL =>
      simp only [flagWrites, znWord_eq, loByte_shiftLeft, carry_shiftLeft]
      exact reports_zn_carry _ _ _
  | LSR =>
      simp only [flagWrites, znWord_eq, loByte_setWidth]
      refine (reports_carry_zn _ _ _).trans (and_iff_left fun hn => ?_)
      exact absurd hn (by rw [sign_shiftRight]; decide)
  | ROL =>
      simp only [flagWrites, znWord_eq, loByte_rotateLeft, carry_rotateLeft]
      exact reports_carry_zn _ _ _
  | ROR =>
      simp only [flagWrites, znWord_eq, loByte_rotateRight, asBool_bit0]
      exact reports_carry_zn _ _ _
  | _ => simp at h

def loadOne : Nes := { ramMachine [0xA9, 0x01] with nesOpcode := 0xA9, nesAddrAbs := 0x0201 }

theorem resultLaw_loadOne : ResultLaw .LDA loadOne :=
  (resultLaw_iff loadOne .LDA (by decide)).mpr ⟨by decide +kernel, by decide +kernel⟩

def loadZero : Nes := { ramMachine [0xA9, 0x00] with nesOpcode := 0xA9, nesAddrAbs := 0x0201 }

theorem loadZero_reports_nonzero :
    NesOp.LDA ∈ resultOps ∧ result loadZero .LDA = 0 ∧ ¬ ResultLaw .LDA loadZero := by
  refine ⟨by decide, by decide +kernel, fun h => ?_⟩
  have hz := (reports_iff _ _).mp h
  revert hz
  decide +kernel

end MetalNes.ResultFlags
