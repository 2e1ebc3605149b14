import MetalNes.NesClock
import MetalNes.NesEffects

namespace MetalNes.CycleCount

open NesBus NesTable NesAddressing NesOperations NesClock Documented NesEffects

section Reference

def readingOps : List NesOp := [.LDA, .LDX, .LDY, .ADC, .SBC, .AND, .ORA, .EOR, .CMP]

def byteAt (s : Nes) (addr : U16) : U8 := nesCpuRead s addr false

/-- The address an indexed mode starts from: the operand word, or for (zp),Y the
word at the operand, both bytes in the zero page. -/
def baseAddress (s : Nes) : NesAddrMode → U16
  | .IZY =>
      let zp := byteAt s (s.PC + 1)
      wordOf (byteAt s (zp.setWidth 16)) (byteAt s ((zp + 1).setWidth 16))
  | _ => wordOf (byteAt s (s.PC + 1)) (byteAt s (s.PC + 2))

def indexOf (s : Nes) : NesAddrMode → U8
  | .ABX => s.X
  | _ => s.Y

def Crosses (s : Nes) (mode : NesAddrMode) : Prop :=
  mode ∈ [.ABX, .ABY, .IZY] ∧
    hiByte (baseAddress s mode + (indexOf s mode).setWidth 16) ≠ hiByte (baseAddress s mode)

instance (s : Nes) (mode : NesAddrMode) : Decidable (Crosses s mode) :=
  inferInstanceAs (Decidable (_ ∧ _))

def followingPC (s : Nes) : U16 := s.PC + 2

def branchTarget (s : Nes) : U16 := followingPC s + (byteAt s (s.PC + 1)).signExtend 16

def documentedCount (r : Row) (s : Nes) : Nat :=
  r.cycles + (if r.op ∈ readingOps ∧ Crosses s r.mode then 1 else 0) +
    if taken s.P r.op then
      1 + if hiByte (branchTarget s) ≠ hiByte (followingPC s) then 1 else 0
    else 0

end Reference

/-- The return values of the operations. NOP answers for six opcodes that are
not official. -/
theorem operate_snd (op : NesOp) (s : Nes) (hnop : op ≠ .NOP) :
    (operate op s).2 = if op ∈ readingOps ∨ op = .CPX ∨ op = .CPY then 1 else 0 := by
  have hbranch : ∀ b, (branch s b).2 = 0 := fun b => by cases b <;> rfl
  cases op with
  | NOP => exact absurd rfl hnop
  | BCC | BCS | BEQ | BMI | BNE | BPL | BVC | BVS => exact hbranch _
  | _ => rfl

theorem indexAddress_snd (s : Nes) (base : U16) (hi index : U8) :
    (indexAddress s base hi index).2 =
      if hiByte (base + index.setWidth 16) ≠ hi then 1 else 0 := by
  simp only [indexAddress, and_page_ne_iff]

theorem zeroPage_pointer (zp : U8) :
    (zp.setWidth 16 + 1) &&& (0x00FF : U16) = (zp + 1).setWidth 16 := by
  revert zp
  decide +kernel

theorem absoluteIndexed_snd (s : Nes) (index : U8) :
    (absoluteIndexed s index).2 =
      if hiByte (operandWord s + index.setWidth 16) ≠ hiByte (operandWord s) then 1 else 0 := by
  have hhi : hiByte (operandWord s) = nesCpuRead s (s.PC + 1) false := hiByte_wordOf _ _
  rw [absoluteIndexed, indexAddress_snd, hhi]

theorem nesIZY_snd (s : Nes) : (nesIZY s).2 =
    let zp := nesCpuRead s s.PC false
    let base := wordOf (nesCpuRead s (zp.setWidth 16) false)
      (nesCpuRead s ((zp + 1).setWidth 16) false)
    if hiByte (base + s.Y.setWidth 16) ≠ hiByte base then 1 else 0 := by
  simp only [nesIZY, indexAddress_snd, setWidth_and_255, zeroPage_pointer, hiByte_wordOf]

theorem operandWord_fetchOpcode (s : Nes) :
    operandWord (fetchOpcode s) = wordOf (byteAt s (s.PC + 1)) (byteAt s (s.PC + 2)) := by
  have htwo : s.PC + 1 + 1 = s.PC + 2 := add_assoc s.PC 1 1
  rw [← htwo]
  rfl

/-- A mode reports a crossed page, and only the three that index a word do. -/
theorem started_snd (s : Nes) (mode : NesAddrMode) :
    (addressing mode (fetchOpcode s)).2 = if Crosses s mode then 1 else 0 := by
  cases mode with
  | ABX | ABY =>
      refine (absoluteIndexed_snd _ _).trans (if_congr ?_ rfl rfl)
      rw [operandWord_fetchOpcode]
      exact (and_iff_right (by decide)).symm
  | IZY =>
      refine (nesIZY_snd _).trans (if_congr ?_ rfl rfl)
      exact (and_iff_right (by decide)).symm
  | _ => exact (if_neg fun h => by simp [Crosses] at h).symm

theorem documented_indexed : ∀ r ∈ documented, r.mode ∈ [.ABX, .ABY, .IZY] →
    r.op ≠ .NOP ∧ r.op ≠ .CPX ∧ r.op ≠ .CPY := by
  decide +kernel

theorem documented_branches : ∀ r ∈ documented,
    r.op ∈ [.BCC, .BCS, .BNE, .BEQ, .BPL, .BMI, .BVC, .BVS] → r.mode = .REL := by
  decide +kernel

theorem documented_break : ∀ r ∈ documented, r.op = .BRK → r.mode = .IMP := by
  decide +kernel

theorem taken_branch {P : U8} {op : NesOp} (h : taken P op = true) :
    op ∈ [.BCC, .BCS, .BNE, .BEQ, .BPL, .BMI, .BVC, .BVS] := by
  cases op <;> first | decide | cases h

/-- The bits a branch tests are not the one nes_clock sets on its way. -/
theorem taken_setflag (P : U8) (op : NesOp) : taken (setflag P .U true) op = taken P op := by
  have hC := getflag_setflag_of_ne P (by decide : NesPFlags.U ≠ .C) true
  have hZ := getflag_setflag_of_ne P (by decide : NesPFlags.U ≠ .Z) true
  have hN := getflag_setflag_of_ne P (by decide : NesPFlags.U ≠ .N) true
  have hV := getflag_setflag_of_ne P (by decide : NesPFlags.U ≠ .V) true
  cases op <;> simp only [taken, hC, hZ, hN, hV, Bool.true_and]

theorem signExtend_masked (m : U8) :
    (if asBool (m.setWidth 16 &&& (0x80 : U16)) then m.setWidth 16 ||| (0xFF00 : U16)
      else m.setWidth 16) = m.signExtend 16 := by
  revert m
  decide +kernel

section Official

variable {s : Nes} {r : Row} (hr : r ∈ documented) (hop : nesCpuRead s s.PC false = r.opcode)

include hr hop

theorem performed_official : performed s = operate r.op (addressed s) := by
  rw [performed_of_opcode hop, (documented_table r hr).1]

theorem addressed_nesCycles : (addressed s).nesCycles = BitVec.ofNat 8 r.cycles := by
  rw [addressed_of_opcode hop, addressing_nesCycles, ← (documented_table r hr).2.1, ← hop]
  rfl

theorem started_snd_official : (started s).2 = if Crosses s r.mode then 1 else 0 := by
  rw [started, started_snd, hop, (documented_table r hr).2.2]
  by_cases hbrk : r.op = .BRK
  · -- neither of the two modes of BRK indexes
    rw [if_pos hbrk, documented_break r hr hbrk]
    simp [Crosses]
  · rw [if_neg hbrk]

theorem branchCycles_official : branchCycles (addressed s) r.op =
    if taken s.P r.op then
      1 + if hiByte (branchTarget s) ≠ hiByte (followingPC s) then 1 else 0
    else 0 := by
  rw [branchCycles, addressed_P, taken_setflag]
  by_cases ht : taken s.P r.op = true
  · have hmode := documented_branches r hr (taken_branch ht)
    have hbrk : r.op ≠ .BRK := by
      rintro he
      rw [he] at ht
      cases ht
    have hrel : addressed s = (nesREL (fetchOpcode s)).1 := by
      rw [addressed_of_opcode hop, (documented_table r hr).2.2, if_neg hbrk, hmode]
      rfl
    have hPC : (addressed s).PC = followingPC s := by
      rw [hrel]
      exact add_assoc s.PC 1 1
    have hoffset : (addressed s).nesAddrRel = (byteAt s (s.PC + 1)).signExtend 16 := by
      rw [hrel]
      exact signExtend_masked _
    have htarget : (addressed s).PC + (addressed s).nesAddrRel = branchTarget s := by
      rw [hPC, hoffset, branchTarget]
    rw [if_pos ht, if_pos ht, htarget, hPC, and_page (followingPC s)]
    simp only [and_page_ne_iff]
  · rw [if_neg ht, if_neg ht]

end Official

/-- The count nes_clock decrements: the one left, or the one of the instruction
it has just run. -/
def counted (s : Nes) : U8 := (if s.nesCycles = 0 then execute (fetchOpcode s) else s).nesCycles

theorem nesClock_nesCycles (s : Nes) : (nesClock s).nesCycles = counted s - 1 := rfl

theorem penalty_official {s : Nes} {r : Row} (hr : r ∈ documented)
    (hop : nesCpuRead s s.PC false = r.opcode) : (started s).2 &&& (performed s).2 =
      BitVec.ofNat 8 (if r.op ∈ readingOps ∧ Crosses s r.mode then 1 else 0) := by
  rw [started_snd_official hr hop, performed_official hr hop]
  by_cases hcross : Crosses s r.mode
  · obtain ⟨hnop, hcpx, hcpy⟩ := documented_indexed r hr hcross.1
    rw [operate_snd r.op _ hnop, if_pos hcross]
    by_cases hread : r.op ∈ readingOps <;> simp [hread, hcpx, hcpy, hcross]
  · rw [if_neg hcross, if_neg fun h => hcross h.2]
    exact BitVec.zero_and

theorem counted_official {s : Nes} (h : s.nesCycles = 0) {r : Row} (hr : r ∈ documented)
    (hop : nesCpuRead s s.PC false = r.opcode) : (counted s).toNat = documentedCount r s := by
  have hcounted : counted s = (performed s).1.nesCycles + ((started s).2 &&& (performed s).2) := by
    rw [counted, if_pos h]
    rfl
  have hbase := (documented_cycles r hr).2
  rw [hcounted, penalty_official hr hop, performed_official hr hop, (operate_effect r.op _).nesCycles,
    addressed_nesCycles hr hop, branchCycles_official hr hop, ← BitVec.ofNat_add, ← BitVec.ofNat_add,
    BitVec.toNat_ofNat, documentedCount]
  have hpenalty : (if r.op ∈ readingOps ∧ Crosses s r.mode then 1 else 0) ≤ 1 := by
    split <;> decide
  have hpage : (if hiByte (branchTarget s) ≠ hiByte (followingPC s) then 1 else 0) ≤ 1 := by
    split <;> decide
  split <;> omega

/-- The instruction under way takes N clocks: it is complete after them and not
before, the later clocks only count, and no clock decrements a zero. -/
structure Accurate (N : Nat) (s : Nes) : Prop where
  complete : nesInsComplete (nesClock^[N] s) = true
  busy : ∀ n, 0 < n → n < N → nesInsComplete (nesClock^[n] s) = false
  settled : ∀ n, 0 < n → n ≤ N →
    nesClock^[n] s = { nesClock s with nesCycles := (nesClock^[n] s).nesCycles }
  noWrap : ∀ n, n < N → counted (nesClock^[n] s) ≠ 0

theorem iterate_nesClock_counted {s : Nes} {N : Nat} (hN : (counted s).toNat = N) {n : Nat}
    (hpos : 0 < n) (hn : n ≤ N) :
    nesClock^[n] s = { nesClock s with nesCycles := BitVec.ofNat 8 (N - n) } := by
  obtain ⟨m, rfl⟩ := Nat.exists_eq_add_of_lt hpos
  rw [Nat.zero_add] at hn ⊢
  have hlt := (counted s).isLt
  have hfirst : (nesClock s).nesCycles.toNat = N - 1 := by
    rw [nesClock_nesCycles, BitVec.toNat_sub_of_le (by rw [BitVec.le_def]; simp; omega), hN]
    rfl
  have hleft : (nesClock s).nesCycles - BitVec.ofNat 8 m = BitVec.ofNat 8 (N - (m + 1)) := by
    apply BitVec.eq_of_toNat_eq
    rw [BitVec.toNat_sub, hfirst, BitVec.toNat_ofNat, BitVec.toNat_ofNat]
    omega
  rw [Function.iterate_succ_apply, iterate_nesClock_idle _ m (by omega), hleft]

theorem accurate_of_counted {s : Nes} {N : Nat} (hN : (counted s).toNat = N) (hpos : 0 < N) :
    Accurate N s := by
  have hlt := (counted s).isLt
  have hcycles : ∀ n, 0 < n → n ≤ N → (nesClock^[n] s).nesCycles = BitVec.ofNat 8 (N - n) := by
    intro n h0 hn
    rw [iterate_nesClock_counted hN h0 hn]
  have hbusy : ∀ n, 0 < n → n < N → (nesClock^[n] s).nesCycles ≠ 0 := by
    intro n h0 hn he
    rw [hcycles n h0 hn.le] at he
    have hnat := congrArg BitVec.toNat he
    simp only [BitVec.toNat_ofNat, BitVec.ofNat_eq_ofNat] at hnat
    omega
  refine ⟨?_, ?_, ?_, ?_⟩
  · rw [nesInsComplete, hcycles N hpos le_rfl, Nat.sub_self]
    rfl
  · intro n h0 hn
    exact beq_eq_false_iff_ne.mpr (hbusy n h0 hn)
  · intro n h0 hn
    rw [hcycles n h0 hn]
    exact iterate_nesClock_counted hN h0 hn
  · intro n hn
    rcases Nat.eq_zero_or_pos n with rfl | h0
    · intro he
      rw [Function.iterate_zero, id_eq] at he
      rw [he] at hN
      exact hpos.ne hN
    · rw [counted, if_neg (hbusy n h0 hn)]
      exact hbusy n h0 hn

theorem nesClock_accurate (s : Nes) (h : s.nesCycles = 0) (r : Row) (hr : r ∈ documented)
    (hop : nesCpuRead s s.PC false = r.opcode) : Accurate (documentedCount r s) s := by
  have hpos : 0 < documentedCount r s := by
    have hbase := (documented_cycles r hr).1
    rw [documentedCount]
    omega
  exact accurate_of_counted (counted_official h hr hop) hpos

def crossingLoad : Nes := { ramMachine [0xBD, 0xFF, 0x02] with X := 1 }

theorem crossingLoad_accurate : Accurate 5 crossingLoad :=
  nesClock_accurate crossingLoad rfl ⟨.LDA, .ABX, 0xBD, 4⟩ (by decide +kernel) (by decide +kernel)

end MetalNes.CycleCount
