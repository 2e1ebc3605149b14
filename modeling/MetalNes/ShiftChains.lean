import MetalNes.FlagFrame
import MetalNes.ShiftForms

namespace MetalNes.ShiftChains

open MultiWord NesBus NesTable NesOperations NesClock FlagWrites NesEffects FlagFrame RamMirror ShiftForms

/-- The carry that a shift leaves. The later updates of N and Z take it away from all
but ASL, which writes it last. -/
def carried (m : U8) : NesOp → Bool
  | .ASL => upper m
  | _ => false

theorem carry_left (m : U8) : decide (m.setWidth 16 <<< 1 &&& (0xFF00 : U16) > 0) = upper m := by
  rw [upper, decide_eq_decide, and_page_pos_iff]
  bv_omega

theorem upper_eq (m : U8) : upper m = m.getLsbD 7 := by
  have hm := m.isLt
  rw [upper, BitVec.getLsbD, Nat.testBit_eq_decide_div_mod_eq, decide_eq_decide]
  omega

theorem odd_eq (m : U8) : odd m = m.getLsbD 0 := by
  rw [odd, BitVec.getLsbD, Nat.testBit_eq_decide_div_mod_eq, decide_eq_decide]
  omega

theorem getflag_znWord (P : U8) (val : U16) : getflag (applyWrites P (znWord val)) .C = false := by
  rw [getflag_applyWrites_unnamed (by simp [znWord]), znWord_all, Bool.false_and]

theorem carry_shift {op : NesOp} (h : op ∈ shifts) (s : Nes) :
    getflag (operate op s).1.P .C = carried (operand s) op := by
  rw [operate_shift_P h]
  rcases shifts_cases h with rfl | rfl | rfl | rfl
  · have hlast : applyWrites s.P (flagWrites s .ASL) =
        setflag (applyWrites s.P (znWord ((operand s).setWidth 16 <<< 1))) .C (upper (operand s)) := by
      rw [← carry_left]
      exact List.foldl_append
    rw [hlast, getflag_setflag_self, getflag_znWord, Bool.or_false]
    rfl
  · exact getflag_znWord _ _
  · exact getflag_znWord _ _
  · exact getflag_znWord _ _

/-- The addresses of a number in RAM, the lowest byte first. Each names a cell of its own. -/
structure InRam (as : List U16) : Prop where
  low : ∀ a ∈ as, a ≤ 0x1FFF
  distinct : (as.map (· &&& 0x07FF)).Nodup

def bytes (s : Nes) (as : List U16) : List U8 := as.map fun a => nesCpuRead s a false

/-- Between the instructions the number and the flags but for U stay as they are. -/
structure Keeps (as : List U16) (s t : Nes) : Prop where
  flags : ∀ f ≠ .U, getflag t.P f = getflag s.P f
  bytes : ∀ a ∈ as, nesCpuRead t a false = nesCpuRead s a false

inductive ShiftRun (as : List U16) : Nes → List (NesOp × U16) → Nes → Prop
  | nil (s : Nes) : ShiftRun as s [] s
  | cons {s t u : Nes} {x : NesOp × U16} {steps : List (NesOp × U16)} (hkeeps : Keeps as s t)
      (hmode : (nesInstruction t.nesOpcode).addrMode ≠ .IMP) (haddr : t.nesAddrAbs = x.2)
      (h : ShiftRun as (operate x.1 t).1 steps u) : ShiftRun as s (x :: steps) u

section Step

variable {op : NesOp} (hop : op ∈ shifts) {t : Nes}
  (hmode : (nesInstruction t.nesOpcode).addrMode ≠ .IMP) (hlow : t.nesAddrAbs ≤ 0x1FFF)

include hop hmode hlow

theorem operate_cell : nesCpuRead (operate op t).1 t.nesAddrAbs false =
    shifted (getflag t.P .C) (nesCpuRead t t.nesAddrAbs false) op := by
  have hram := (operate_shift hop t).2
  have hoperand : operand t = nesCpuRead t t.nesAddrAbs false := if_neg hmode
  rw [if_neg hmode, hoperand] at hram
  exact nesCpuRead_ramWrite hlow hram

theorem operate_others {b : U16} (hb : b ≤ 0x1FFF) (hne : b &&& 0x07FF ≠ t.nesAddrAbs &&& 0x07FF) :
    nesCpuRead (operate op t).1 b false = nesCpuRead t b false := by
  rw [nesCpuRead_ram _ hb, nesCpuRead_ram _ hb, (operate_shift hop t).2, if_neg hmode, ramWrite, if_pos hlow,
    Function.update_of_ne hne]

end Step

/-- What a chain of shifts does to the carry and to the bytes it visits. -/
def shiftOutputs : Bool → List (NesOp × U8) → List U8 :=
  outputs (fun c x => shifted c x.2 x.1) fun _ x => carried x.2 x.1

def shiftCarry : Bool → List (NesOp × U8) → Bool := carryOut fun _ x => carried x.2 x.1

def inputs (s : Nes) (steps : List (NesOp × U16)) : List (NesOp × U8) :=
  steps.map fun x => (x.1, nesCpuRead s x.2 false)

section Run

variable {as : List U16} (hlow : ∀ a ∈ as, a ≤ 0x1FFF)

include hlow

/-- One shift of a run: its cell, the carry it leaves and the rest of the number. -/
theorem shift_step {s t : Nes} {x : NesOp × U16} (hop : x.1 ∈ shifts) (hx : x.2 ∈ as) (hkeeps : Keeps as s t)
    (hmode : (nesInstruction t.nesOpcode).addrMode ≠ .IMP) (haddr : t.nesAddrAbs = x.2) :
    nesCpuRead (operate x.1 t).1 x.2 false = shifted (getflag s.P .C) (nesCpuRead s x.2 false) x.1 ∧
      getflag (operate x.1 t).1.P .C = carried (nesCpuRead s x.2 false) x.1 ∧
      ∀ b ∈ as, b &&& 0x07FF ≠ x.2 &&& 0x07FF →
        nesCpuRead (operate x.1 t).1 b false = nesCpuRead s b false := by
  have hxlow : t.nesAddrAbs ≤ 0x1FFF := by
    rw [haddr]
    exact hlow x.2 hx
  have hcell := operate_cell hop hmode hxlow
  have hC := carry_shift hop t
  have hoperand : operand t = nesCpuRead t t.nesAddrAbs false := if_neg hmode
  rw [haddr, hkeeps.bytes x.2 hx, hkeeps.flags .C (by decide)] at hcell
  rw [hoperand, haddr, hkeeps.bytes x.2 hx] at hC
  refine ⟨hcell, hC, ?_⟩
  intro b hb hne
  rw [operate_others hop hmode hxlow (hlow b hb) (by rwa [haddr]), hkeeps.bytes b hb]

omit hlow in
theorem inputs_congr {s t : Nes} {steps : List (NesOp × U16)}
    (h : ∀ y ∈ steps, nesCpuRead t y.2 false = nesCpuRead s y.2 false) : inputs t steps = inputs s steps :=
  List.map_congr_left fun y hy => by rw [h y hy]

/-- The bytes and the carry after a run, and the bytes of the number it does not visit. -/
theorem shiftRun_outputs {s u : Nes} {steps : List (NesOp × U16)} (h : ShiftRun as s steps u)
    (hsteps : ∀ x ∈ steps, x.1 ∈ shifts ∧ x.2 ∈ as) (hdistinct : (steps.map fun x => x.2 &&& 0x07FF).Nodup) :
    bytes u (steps.map Prod.snd) = shiftOutputs (getflag s.P .C) (inputs s steps) ∧
      getflag u.P .C = shiftCarry (getflag s.P .C) (inputs s steps) ∧
      ∀ b ∈ as, b &&& 0x07FF ∉ steps.map (fun x => x.2 &&& 0x07FF) →
        nesCpuRead u b false = nesCpuRead s b false := by
  induction h with
  | nil s => exact ⟨rfl, rfl, fun _ _ _ => rfl⟩
  | @cons s t u x steps hkeeps hmode haddr h ih =>
      rw [List.forall_mem_cons] at hsteps
      rw [List.map_cons, List.nodup_cons] at hdistinct
      obtain ⟨⟨hop, hx⟩, hrest⟩ := hsteps
      obtain ⟨hcell, hC, hframe⟩ := shift_step hlow hop hx hkeeps hmode haddr
      obtain ⟨hbytes, hcarry, hothers⟩ := ih hrest hdistinct.2
      have hinputs : inputs (operate x.1 t).1 steps = inputs s steps := by
        refine inputs_congr fun y hy => hframe y.2 (hrest y hy).2 fun he => hdistinct.1 ?_
        exact List.mem_map.mpr ⟨y, hy, he⟩
      rw [hinputs, hC] at hbytes hcarry
      refine ⟨?_, hcarry, ?_⟩
      · have hhead := (hothers x.2 hx hdistinct.1).trans hcell
        rw [List.map_cons, bytes, List.map_cons, hhead, ← bytes, hbytes]
        rfl
      · intro b hb hnot
        rw [List.map_cons, List.mem_cons, not_or] at hnot
        exact (hothers b hb hnot.2).trans (hframe b hb hnot.1)

end Run

/-- One instruction on the first address and another one on each of the rest. -/
def program (first next : NesOp) : List U16 → List (NesOp × U16)
  | [] => []
  | a :: as => (first, a) :: as.map fun b => (next, b)

theorem program_snd (first next : NesOp) (as : List U16) : (program first next as).map Prod.snd = as := by
  cases as with
  | nil => rfl
  | cons a as => simp [program, Function.comp_def]

theorem program_cells (first next : NesOp) (as : List U16) :
    ((program first next as).map fun x => x.2 &&& 0x07FF) = as.map (· &&& 0x07FF) := by
  rw [← program_snd first next as, List.map_map, program_snd]
  rfl

theorem program_steps {first next : NesOp} (hfirst : first ∈ shifts) (hnext : next ∈ shifts) (as : List U16) :
    ∀ x ∈ program first next as, x.1 ∈ shifts ∧ x.2 ∈ as := by
  cases as with
  | nil => exact fun x hx => absurd hx List.not_mem_nil
  | cons a as =>
      rw [program, List.forall_mem_cons]
      refine ⟨⟨hfirst, List.mem_cons_self⟩, fun x hx => ?_⟩
      obtain ⟨b, hb, rfl⟩ := List.mem_map.mp hx
      exact ⟨hnext, List.mem_cons_of_mem a hb⟩

/-- What a shift to the left over a number should leave. -/
structure Doubles (as : List U16) (s u : Nes) : Prop where
  number : value (bytes u as) = 2 * value (bytes s as) % 256 ^ as.length
  carry : getflag u.P .C = (value (bytes s as)).testBit (8 * as.length - 1)

structure Halves (as : List U16) (s u : Nes) : Prop where
  number : value (bytes u as) = value (bytes s as) / 2
  carry : getflag u.P .C = (value (bytes s as)).testBit 0

theorem length_bytes (s : Nes) (as : List U16) : (bytes s as).length = as.length := List.length_map _

theorem inputs_program (s : Nes) (first next : NesOp) (a : U16) (as : List U16) :
    inputs s (program first next (a :: as)) =
      (first, nesCpuRead s a false) :: (bytes s as).map fun x => (next, x) := by
  rw [inputs, program, List.map_cons, List.map_map, bytes, List.map_map]
  rfl

theorem program_run {as : List U16} (has : InRam as) {first next : NesOp} (hfirst : first ∈ shifts)
    (hnext : next ∈ shifts) {cs : List U16} (hcs : cs.Perm as) {s u : Nes}
    (h : ShiftRun as s (program first next cs) u) :
    bytes u cs = shiftOutputs (getflag s.P .C) (inputs s (program first next cs)) ∧
      getflag u.P .C = shiftCarry (getflag s.P .C) (inputs s (program first next cs)) := by
  have hsteps : ∀ x ∈ program first next cs, x.1 ∈ shifts ∧ x.2 ∈ as := fun x hx =>
    ⟨(program_steps hfirst hnext cs x hx).1, hcs.subset (program_steps hfirst hnext cs x hx).2⟩
  have hdistinct : ((program first next cs).map fun x => x.2 &&& 0x07FF).Nodup := by
    rw [program_cells]
    exact (hcs.map _).nodup_iff.mpr has.distinct
  obtain ⟨hbytes, hcarry, -⟩ := shiftRun_outputs has.low h hsteps hdistinct
  rw [program_snd] at hbytes
  exact ⟨hbytes, hcarry⟩

/-- A shift to the left comes out right where no carry enters another byte but the
second. -/
theorem doubles_iff {a : U16} {as : List U16} (has : InRam (a :: as)) {s u : Nes}
    (h : ShiftRun (a :: as) s (program .ASL .ROL (a :: as)) u) :
    Doubles (a :: as) s u ↔ ∀ b ∈ bytes s as, b.getLsbD 7 = false := by
  obtain ⟨hbytes, hcarry⟩ := program_run has (by decide) (by decide) (.refl _) h
  have harith := double_lost_iff (by decide : 0 < 8) (nesCpuRead s a false) (bytes s as)
  rw [inputs_program] at hbytes hcarry
  have hlostBytes : bytes u (a :: as) = double false (nesCpuRead s a false) ::
      outputs double lost (upper (nesCpuRead s a false)) (bytes s as) := by
    rw [hbytes]
    exact congrArg _ (outputs_map _ _ _ _ _)
  have hlostCarry : getflag u.P .C = carryOut lost (upper (nesCpuRead s a false)) (bytes s as) := by
    rw [hcarry]
    exact carryOut_map _ _ _ _
  have hlength : (nesCpuRead s a false :: bytes s as).length = (a :: as).length := length_bytes s (a :: as)
  rw [← hlostBytes, ← hlostCarry, hlength] at harith
  simp only [upper_eq] at harith
  rw [← harith]
  exact ⟨fun hlaw => ⟨hlaw.number, hlaw.carry⟩, fun hlaw => ⟨hlaw.1, hlaw.2⟩⟩

theorem bytes_reverse (s : Nes) (as : List U16) : bytes s as.reverse = (bytes s as).reverse := List.map_reverse

theorem halves_iff {as : List U16} (hne : as ≠ []) (has : InRam as) {s u : Nes}
    (h : ShiftRun as s (program .LSR .ROR as.reverse) u) :
    Halves as s u ↔ ∀ b ∈ bytes s as, b.getLsbD 0 = false := by
  obtain ⟨hbytes, hcarry⟩ := program_run has (by decide) (by decide) (List.reverse_perm as) h
  have harith := halve_lost_iff (by decide : 0 < 8) (bytes s as)
  obtain ⟨a, cs, hcs⟩ := List.exists_cons_of_ne_nil (mt List.reverse_eq_nil_iff.mp hne)
  rw [← bytes_reverse, hcs] at harith
  rw [hcs, inputs_program] at hbytes hcarry
  have hlostBytes : bytes u (a :: cs) = outputs halve lost false (bytes s (a :: cs)) := by
    rw [hbytes]
    exact congrArg _ (outputs_map _ _ _ _ _)
  have hlostCarry : getflag u.P .C = carryOut lost false (bytes s (a :: cs)) := by
    rw [hcarry]
    exact carryOut_map _ _ _ _
  rw [← hlostBytes, ← hlostCarry, ← hcs, bytes_reverse, List.reverse_reverse] at harith
  simp only [odd_eq] at harith
  rw [← harith]
  exact ⟨fun hlaw => ⟨hlaw.number, hlaw.carry⟩, fun hlaw => ⟨hlaw.1, hlaw.2⟩⟩

/-- For every number in RAM: the carries between the bytes are lost, except for the one
that ASL leaves. -/
theorem shifts_iff {as : List U16} (hne : as ≠ []) (has : InRam as) (s u v : Nes)
    (hleft : ShiftRun as s (program .ASL .ROL as) u)
    (hright : ShiftRun as s (program .LSR .ROR as.reverse) v) :
    (Doubles as s u ↔ ∀ b ∈ (bytes s as).tail, b.getLsbD 7 = false) ∧
      (Halves as s v ↔ ∀ b ∈ bytes s as, b.getLsbD 0 = false) := by
  refine ⟨?_, halves_iff hne has hright⟩
  obtain ⟨a, cs, rfl⟩ := List.exists_cons_of_ne_nil hne
  exact doubles_iff has hleft

/-- The zero page instructions of a program run without anything in between. -/
def runSteps (s : Nes) (steps : List (NesOp × U16)) : Nes :=
  steps.foldl (fun s x => (operate x.1 { s with nesOpcode := 0x06, nesAddrAbs := x.2 }).1) s

theorem shiftRun_runSteps (as : List U16) (s : Nes) (steps : List (NesOp × U16)) :
    ShiftRun as s steps (runSteps s steps) := by
  induction steps generalizing s with
  | nil => exact .nil s
  | cons x steps ih =>
      have hmode : (nesInstruction 0x06).addrMode ≠ .IMP := by decide +kernel
      exact .cons (t := { s with nesOpcode := 0x06, nesAddrAbs := x.2 })
        ⟨fun _ _ => rfl, fun _ _ => rfl⟩ hmode rfl (ih _)

/-- A machine with a number of two bytes at $0010. -/
def numberState (lo hi : U8) : Nes :=
  { ramMachine [] with nesCpuRam := fun a => if a = 0x0010 then lo else if a = 0x0011 then hi else 0 }

theorem pair_inRam : InRam [0x0010, 0x0011] where
  low := List.forall_mem_cons.mpr ⟨by decide, List.forall_mem_singleton.mpr (by decide)⟩
  distinct := by decide +kernel

theorem small_even_shifts :
    Doubles [0x0010, 0x0011] (numberState 0x82 0x10)
        (runSteps (numberState 0x82 0x10) (program .ASL .ROL [0x0010, 0x0011])) ∧
      Halves [0x0010, 0x0011] (numberState 0x82 0x10)
        (runSteps (numberState 0x82 0x10) (program .LSR .ROR [0x0011, 0x0010])) := by
  have hiff := shifts_iff (List.cons_ne_nil _ _) pair_inRam (numberState 0x82 0x10) _ _
    (shiftRun_runSteps _ _ _) (shiftRun_runSteps _ _ _)
  exact ⟨hiff.1.mpr (by decide +kernel), hiff.2.mpr (by decide +kernel)⟩

theorem lost_carries : ∃ u v : Nes,
    ShiftRun [0x0010, 0x0011] (numberState 0x00 0x81) (program .ASL .ROL [0x0010, 0x0011]) u ∧
    ShiftRun [0x0010, 0x0011] (numberState 0x00 0x81) (program .LSR .ROR [0x0011, 0x0010]) v ∧
      ¬ Doubles [0x0010, 0x0011] (numberState 0x00 0x81) u ∧
      ¬ Halves [0x0010, 0x0011] (numberState 0x00 0x81) v := by
  refine ⟨_, _, shiftRun_runSteps _ _ _, shiftRun_runSteps _ _ _, fun h => ?_, fun h => ?_⟩
  · have hcarry := h.carry
    revert hcarry
    decide +kernel
  · have hnumber := h.number
    revert hnumber
    decide +kernel

end MetalNes.ShiftChains
