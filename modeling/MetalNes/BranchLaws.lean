import MetalNes.BusAccess
import MetalNes.CycleCount
import MetalNes.ResultFlags

namespace MetalNes.BranchLaws

open NesBus NesTable NesAddressing NesOperations NesClock FlagWrites Documented NesEffects BusAccess CycleCount

def branches : List NesOp := [.BCC, .BCS, .BNE, .BEQ, .BPL, .BMI, .BVC, .BVS]

def complementary : List (NesOp × NesOp) := [(.BCC, .BCS), (.BEQ, .BNE), (.BMI, .BPL), (.BVC, .BVS)]

/-- A branch is taken: its handler adds the offset to PC, whichever the addressing mode
has left. -/
def Jumps (op : NesOp) (s : Nes) : Prop :=
  ∀ rel, (operate op { s with nesAddrRel := rel }).1.PC = s.PC + rel

theorem operate_branch {op : NesOp} (h : op ∈ branches) (s : Nes) :
    operate op s = branch s (taken s.P op) := by
  simp only [branches, List.mem_cons, List.not_mem_nil, or_false] at h
  rcases h with rfl | rfl | rfl | rfl | rfl | rfl | rfl | rfl
  all_goals simp [operate, nesBCC, nesBCS, nesBNE, nesBEQ, nesBPL, nesBMI, nesBVC, nesBVS, taken, nesGetflag]

theorem jumps_iff {op : NesOp} (h : op ∈ branches) (s : Nes) : Jumps op s ↔ taken s.P op = true := by
  have hPC : ∀ rel, (operate op { s with nesAddrRel := rel }).1.PC =
      if taken s.P op then s.PC + rel else s.PC := by
    intro rel
    rw [operate_branch h, branch_eq]
    cases taken s.P op with
    | false | true => rfl
  constructor
  · intro hjumps
    have hone := hjumps 1
    rw [hPC] at hone
    by_contra hstay
    rw [if_neg hstay] at hone
    bv_omega
  · intro htaken rel
    rw [hPC, if_pos htaken]

theorem complementary_branches {p : NesOp × NesOp} (h : p ∈ complementary) :
    p.1 ∈ branches ∧ p.2 ∈ branches ∧ ∀ P, taken P p.1 = !taken P p.2 := by
  simp only [complementary, List.mem_cons, List.not_mem_nil, or_false] at h
  rcases h with rfl | rfl | rfl | rfl
  all_goals
    refine ⟨by decide, by decide, fun P => ?_⟩
    simp only [taken, Bool.not_not]

section Targets

structure BranchLaw (op : NesOp) (s : Nes) : Prop where
  PC : (nesClock s).PC = if taken s.P op then branchTarget s else s.PC + 2
  A : (nesClock s).A = s.A
  X : (nesClock s).X = s.X
  Y : (nesClock s).Y = s.Y
  SP : (nesClock s).SP = s.SP
  flags : ∀ f ≠ .U, getflag (nesClock s).P f = getflag s.P f
  ram : (nesClock s).nesCpuRam = s.nesCpuRam
  cart : (nesClock s).nesLoadedCart = s.nesLoadedCart

theorem branch_registers (s : Nes) (t : Bool) : (branch s t).1.A = s.A ∧ (branch s t).1.X = s.X ∧
    (branch s t).1.Y = s.Y ∧ (branch s t).1.SP = s.SP ∧ (branch s t).1.nesCpuRam = s.nesCpuRam := by
  rw [branch_eq]
  cases t with
  | false | true => exact ⟨rfl, rfl, rfl, rfl, rfl⟩

section Official

variable {s : Nes} {r : Row} (hr : r ∈ documented) (hbranch : r.op ∈ branches)
  (hop : nesCpuRead s s.PC false = r.opcode)

include hr hbranch hop

theorem addressed_branch : addressed s = (nesREL (fetchOpcode s)).1 := by
  have hbrk : r.op ≠ .BRK := by
    rintro he
    rw [he] at hbranch
    revert hbranch
    decide
  rw [addressed_of_opcode hop, (documented_table r hr).2.2, if_neg hbrk, documented_branches r hr hbranch]
  rfl

theorem performed_branch : performed s = branch (addressed s) (taken s.P r.op) := by
  rw [performed_official hr hop, operate_branch hbranch, addressed_P, taken_setflag]

theorem performed_PC : (performed s).1.PC = if taken s.P r.op then branchTarget s else s.PC + 2 := by
  have haddressed := addressed_branch hr hbranch hop
  have hPC : (addressed s).PC = s.PC + 2 := by
    rw [haddressed]
    exact add_assoc s.PC 1 1
  have hoffset : (addressed s).nesAddrRel = (byteAt s (s.PC + 1)).signExtend 16 := by
    rw [haddressed]
    exact signExtend_masked _
  rw [performed_branch hr hbranch hop, branch_eq, hPC, hoffset]
  cases taken s.P r.op with
  | false => exact hPC
  | true => rfl

theorem nesClock_branch (h : s.nesCycles = 0) : BranchLaw r.op s := by
  obtain ⟨hA, hX, hY, hSP, hram⟩ := branch_registers (addressed s) (taken s.P r.op)
  have hP := (branch_frame (addressed s) (taken s.P r.op)).1
  rw [← performed_branch hr hbranch hop] at hA hX hY hSP hram hP
  refine ⟨?_, ?_, ?_, ?_, ?_, ?_, ?_, nesClock_nesLoadedCart s⟩
  · rw [nesClock_PC h, performed_PC hr hbranch hop]
  · rw [nesClock_A h, hA, addressed_A]
  · rw [nesClock_X h, hX, addressed_X]
  · rw [nesClock_Y h, hY, addressed_Y]
  · rw [nesClock_SP h, hSP, addressed_SP]
  · intro f hf
    rw [nesClock_P h, hP, addressed_P, getflag_setflag_of_ne _ hf.symm, getflag_setflag_of_ne _ hf.symm,
      Bool.true_and, Bool.true_and]
  · rw [nesClock_nesCpuRam h, hram, addressed_nesCpuRam]

end Official

/-- Every branch goes where its flag sends it and changes nothing else, and of two
complementary branches exactly one is taken. -/
theorem branch_targets :
    (∀ s : Nes, s.nesCycles = 0 → ∀ r ∈ documented, r.op ∈ branches →
      nesCpuRead s s.PC false = r.opcode → BranchLaw r.op s) ∧
    ∀ p ∈ complementary, ∀ s, Xor (Jumps p.1 s) (Jumps p.2 s) := by
  refine ⟨fun s h r hr hbranch hop => nesClock_branch hr hbranch hop h, fun p hp s => ?_⟩
  obtain ⟨hfirst, hsecond, hopposite⟩ := complementary_branches hp
  rw [jumps_iff hfirst, jumps_iff hsecond, hopposite]
  cases taken s.P p.2 with
  | false => exact .inl ⟨rfl, Bool.false_ne_true⟩
  | true => exact .inr ⟨rfl, Bool.false_ne_true⟩

/-- A backward branch over the end of the address space. -/
def backward : Nes :=
  { ramMachine [] with PC := 0, nesCpuRam := fun a => if a = 0 then 0xD0 else 0x80 }

theorem backward_wraps : BranchLaw .BNE backward ∧ branchTarget backward = 0xFF82 ∧
    Xor (Jumps .BEQ backward) (Jumps .BNE backward) :=
  ⟨branch_targets.1 backward rfl ⟨.BNE, .REL, 0xD0, 2⟩ (by decide +kernel) (by decide) (by decide +kernel),
    by decide +kernel, branch_targets.2 (.BEQ, .BNE) (by decide) backward⟩

end Targets

section Comparisons

def comparisons : List NesOp := [.CMP, .CPX, .CPY]

/-- The register that an instruction compares. -/
def compared (s : Nes) : NesOp → U8
  | .CPX => s.X
  | .CPY => s.Y
  | _ => s.A

/-- The branches that follow a comparison decide by the register and the operand.
The flags they find are those the comparison left, but for U. -/
def CompareLaw (op : NesOp) (s : Nes) : Prop :=
  let r := compared s op
  let m := operand s
  ∀ t : Nes, (∀ f ≠ .U, getflag t.P f = getflag (operate op s).1.P f) →
    (Jumps .BEQ t ↔ r = m) ∧ (Jumps .BNE t ↔ r ≠ m) ∧ (Jumps .BCS t ↔ m ≤ r) ∧
      (Jumps .BCC t ↔ r < m) ∧ (Jumps .BMI t ↔ (r - m).getLsbD 7 = true)

theorem flagWrites_comparison {op : NesOp} (h : op ∈ comparisons) (s : Nes) :
    flagWrites s op = compareWrites (compared s op) (operand s) := by
  simp only [comparisons, List.mem_cons, List.not_mem_nil, or_false] at h
  rcases h with rfl | rfl | rfl
  all_goals rfl

theorem operate_comparison_P {op : NesOp} (h : op ∈ comparisons) (s : Nes) :
    (operate op s).1.P = applyWrites s.P (compareWrites (compared s op) (operand s)) := by
  rw [← flagWrites_comparison h, operate_P (by decide) h]

theorem loByte_sub (r m : U8) : loByte (r.setWidth 16 - m.setWidth 16) = r - m := by
  rw [loByte]
  bv_omega

/-- The flags come out right exactly for a borrow: no other comparison leaves C set. -/
theorem compare_flags_iff (P r m : U8) :
    (getflag (applyWrites P (compareWrites r m)) .Z = decide (r = m) ∧
      getflag (applyWrites P (compareWrites r m)) .C = decide (m ≤ r) ∧
      getflag (applyWrites P (compareWrites r m)) .N = (r - m).getLsbD 7) ↔ r < m := by
  have hzero : (r - m == 0x0) = decide (r = m) := by
    rw [Bool.eq_iff_iff, beq_iff_eq, decide_eq_true_iff]
    exact ⟨fun h => by bv_omega, fun h => by bv_omega⟩
  have hz := zero_and_sign (r - m)
  have hle : decide (r = m) = true → decide (m ≤ r) = true := by
    rw [decide_eq_true_iff, decide_eq_true_iff]
    rintro rfl
    exact BitVec.le_refl _
  have hlt : r < m ↔ decide (m ≤ r) = false := by
    rw [decide_eq_false_iff_not, BitVec.not_le]
  rw [hlt]
  simp only [compareWrites, znWord_eq, loByte_sub, zn, applyWrites, List.foldl_cons, List.foldl_nil,
    getflag_setflag, reduceCtorEq, if_false, if_true, asBool_bit7, hzero, ge_iff_le]
  rw [hzero] at hz
  revert hz hle
  generalize decide (r = m) = z, decide (m ≤ r) = c, (r - m).getLsbD 7 = n, getflag P .Z = Z,
    getflag P .C = C, getflag P .N = N
  revert z c n Z C N
  decide

theorem jumps_flags (t : Nes) :
    (Jumps .BEQ t ↔ getflag t.P .Z = true) ∧ (Jumps .BNE t ↔ ¬ getflag t.P .Z = true) ∧
      (Jumps .BCS t ↔ getflag t.P .C = true) ∧ (Jumps .BCC t ↔ ¬ getflag t.P .C = true) ∧
      (Jumps .BMI t ↔ getflag t.P .N = true) := by
  rw [jumps_iff (by decide), jumps_iff (by decide), jumps_iff (by decide), jumps_iff (by decide),
    jumps_iff (by decide)]
  simp [taken]

/-- The branches agree with the comparison exactly where the register is less. -/
theorem compareLaw_iff (op : NesOp) (h : op ∈ comparisons) (s : Nes) :
    CompareLaw op s ↔ compared s op < operand s := by
  have hP := operate_comparison_P h s
  rw [← compare_flags_iff s.P, ← hP]
  constructor
  · intro hlaw
    obtain ⟨hBEQ, -, hBCS, -, hBMI⟩ := hlaw (operate op s).1 fun _ _ => rfl
    obtain ⟨hZ, -, hC, -, hN⟩ := jumps_flags (operate op s).1
    refine ⟨?_, ?_, ?_⟩
    · rw [Bool.eq_iff_iff, decide_eq_true_iff, ← hZ, hBEQ]
    · rw [Bool.eq_iff_iff, decide_eq_true_iff, ← hC, hBCS]
    · rw [Bool.eq_iff_iff, ← hN, hBMI]
  · rintro ⟨hZ, hC, hN⟩ t ht
    obtain ⟨hBEQ, hBNE, hBCS, hBCC, hBMI⟩ := jumps_flags t
    rw [hBEQ, hBNE, hBCS, hBCC, hBMI, ht .Z (by decide), ht .C (by decide), ht .N (by decide), hZ, hC, hN,
      decide_eq_true_iff, decide_eq_true_iff, BitVec.not_le]
    exact ⟨Iff.rfl, Iff.rfl, Iff.rfl, Iff.rfl, Iff.rfl⟩

theorem compareLaw_less : CompareLaw .CMP (immediateMachine 0xC9 1 2 0) :=
  (compareLaw_iff .CMP (by decide) (immediateMachine 0xC9 1 2 0)).mpr (by decide +kernel)

theorem equal_no_branch : ¬ CompareLaw .CMP (immediateMachine 0xC9 1 1 0) := by
  intro h
  have hBCS := (h (operate .CMP (immediateMachine 0xC9 1 1 0)).1 fun _ _ => rfl).2.2.1.mpr (by decide +kernel) 1
  revert hBCS
  decide +kernel

end Comparisons

end MetalNes.BranchLaws
