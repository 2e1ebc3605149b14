import MetalNes.NesOperations

namespace MetalNes.FlagWrites

open NesBus NesTable NesOperations

abbrev Writes := List (NesPFlags × Bool)

def applyWrites (P : U8) (writes : Writes) : U8 := writes.foldl (fun P w => setflag P w.1 w.2) P

def zn (r : U8) : Writes := [(.Z, r == 0x0), (.N, asBool (r &&& 0x80))]

def znWord (val : U16) : Writes := [(.Z, val &&& 0xFF == 0x0), (.N, asBool (val &&& 0x80))]

def compareWrites (r m : U8) : Writes :=
  (.C, decide (r ≥ m)) :: znWord (r.setWidth 16 - m.setWidth 16)

theorem znWord_eq (val : U16) : znWord val = zn (loByte val) := by
  rw [znWord, zn, word_and_eq_zero, asBool_word_bit7, asBool_bit7]

theorem and_255 (r : U8) : r &&& 0xFF = r := BitVec.and_allOnes

/-- A zero byte has no sign bit, so of the two writes one is a clearing. -/
theorem zero_and_sign (r : U8) : (r == 0x0 && r.getLsbD 7) = false := by
  by_cases h : r = 0
  · subst h; rfl
  · rw [beq_eq_false_iff_ne.mpr h, Bool.false_and]

/-- The flag writes of each handler, computed from the state the handler finds.
PLP and RTI replace P before their writes, so theirs are listed as none. -/
def flagWrites (s : Nes) : NesOp → Writes
  | .ADC =>
      let A := s.A.setWidth 16
      let fetched := (operand s).setWidth 16
      [(.C, decide (A + fetched + ofBool (nesGetflag s .C) > 255)), (.Z, asBool (0 : U16)),
        (.V, asBool ((~~~A ^^^ (fetched &&& (A ^^^ 0))) &&& 0x0080)), (.N, asBool ((0 : U16) &&& 0x80))]
  | .SBC =>
      let A := s.A.setWidth 16
      let val := (operand s).setWidth 16 ^^^ 0x00FF
      let temp := A + val + ofBool (nesGetflag s .C)
      [(.C, asBool (temp &&& 0xFF00)), (.Z, temp &&& 0x00FF == 0x0),
        (.V, asBool ((temp ^^^ A) &&& (temp ^^^ val) &&& 0x0080)), (.N, asBool (temp &&& 0x80))]
  | .AND => zn (s.A &&& operand s)
  | .ORA => zn (s.A ||| operand s)
  | .EOR => zn (operand s ^^^ s.A)
  | .LDA | .LDX | .LDY => zn (operand s)
  | .TAY => zn s.A
  | .TSX => zn s.SP
  | .TXA => zn s.X
  | .TYA => zn s.Y
  | .PLA => zn (nesPull s).2
  | .TAX => [(.N, s.A == 0x0), (.Z, asBool (s.A &&& 0x80))]
  | .INX => [(.Z, (s.X + 1) &&& 0xFF == 0x0), (.N, asBool ((s.X + 1) &&& 0x80))]
  | .INY => [(.Z, (s.Y + 1) &&& 0xFF == 0x0), (.N, asBool ((s.Y + 1) &&& 0x80))]
  | .DEX => [(.N, asBool ((s.X - 1) &&& 0x80)), (.Z, (s.X - 1) &&& 0xFF == 0x0)]
  | .DEY => [(.N, asBool ((s.Y - 1) &&& 0x80)), (.Z, (s.Y - 1) &&& 0xFF == 0x0)]
  | .INC => znWord ((operand s).setWidth 16 + 1)
  | .DEC => znWord ((operand s).setWidth 16 - 1)
  | .CMP => compareWrites s.A (operand s)
  | .CPX => compareWrites s.X (operand s)
  | .CPY => compareWrites s.Y (operand s)
  | .ASL =>
      let val := (operand s).setWidth 16 <<< 1
      znWord val ++ [(.C, decide (val &&& 0xFF00 > 0))]
  | .LSR => (.C, asBool (operand s &&& 0x01)) :: znWord ((operand s >>> 1).setWidth 16)
  | .ROL =>
      let temp := ((operand s).setWidth 16 <<< 1) ||| ofBool (nesGetflag s .C)
      (.C, asBool (temp &&& 0xFF00)) :: znWord temp
  | .ROR =>
      (.C, asBool (operand s &&& 0x01)) ::
        znWord ((ofBool (nesGetflag s .C) <<< 7) ||| (operand s >>> 1).setWidth 16)
  | .BIT =>
      [(.Z, s.A &&& operand s == 0), (.N, asBool (operand s &&& (1#8 <<< 7))),
        (.V, asBool (operand s &&& (1#8 <<< 6)))]
  | .BRK => [(.I, true), (.B, true), (.B, false)]
  | .PHP => [(.B, false), (.U, false)]
  | .CLC => [(.C, false)]
  | .CLD => [(.D, false)]
  | .CLI => [(.I, false)]
  | .CLV => [(.V, false)]
  | .SEC => [(.C, true)]
  | .SED => [(.D, true)]
  | .SEI => [(.I, true)]
  | _ => []

theorem getflag_applyWrites_unnamed {f : NesPFlags} {writes : Writes} (h : ∀ w ∈ writes, w.1 ≠ f)
    (P : U8) : getflag (applyWrites P writes) f = (writes.all (·.2) && getflag P f) := by
  induction writes generalizing P with
  | nil => simp [applyWrites]
  | cons w writes ih =>
      have hne := h w List.mem_cons_self
      have hw := ih (fun v hv => h v (List.mem_cons_of_mem w hv)) (setflag P w.1 w.2)
      rw [applyWrites, List.foldl_cons, ← applyWrites, hw, getflag_setflag_of_ne P hne, List.all_cons]
      cases w.2 <;> simp

end MetalNes.FlagWrites
