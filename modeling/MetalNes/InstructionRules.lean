import MetalNes.InstructionRuns
import MetalNes.Timed

namespace MetalNes.InstructionRules

open Timed NesBus NesTable NesOperations NesClock FlagWrites Documented NesEffects CycleCount InstructionSet
open InstructionRefinement InstructionRuns ResultFlags

/-- The machine stands in front of an instruction, and the zero flag is known. -/
structure Stands (cart : NesCartidge) (c : Cpu (U16 → U8)) (zero : Bool) (s : Nes) : Prop where
  start : s.nesCycles = 0
  cart : s.nesLoadedCart = cart
  view : view s = c
  zero : getflag s.P .Z = zero

section Rules

variable {cart : NesCartidge} {c : Cpu (U16 → U8)} {zero : Bool} {s : Nes} {r : Row}

theorem nesClock_flags (h : s.nesCycles = 0) (hr : r ∈ documented) (hop : nesCpuRead s s.PC false = r.opcode)
    (hload : r.op ≠ .PLP ∧ r.op ≠ .RTI) {f : NesPFlags} (hf : f ≠ .U) : getflag (nesClock s).P f =
      getflag (applyWrites (setflag s.P .U true) (flagWrites (addressed s) r.op)) f := by
  rw [nesClock_P h, getflag_setflag_of_ne _ hf.symm, Bool.true_and, performed_official hr hop,
    (operate_effect r.op _).P hload.1 hload.2, addressed_P]

/-- The rule of all instructions: the view is the documented one, after the documented count. -/
theorem Stands.instruction (h : Stands cart c zero s) (hr : r ∈ documented)
    (hop : (cartBus cart).read c.mem c.PC = r.opcode) (hhonoured : Honoured r) :
    Stands cart (exec (cartBus cart) r s.P c) (getflag (nesClock s).P .Z) (nesClock^[documentedCount r s] s) := by
  obtain ⟨hstart, rfl, rfl, -⟩ := h
  have hopcode : nesCpuRead s s.PC false = r.opcode := (read_view s s.PC).symm.trans hop
  have hpos : 0 < documentedCount r s := by
    have hbase := (documented_cycles r hr).1
    rw [documentedCount]
    omega
  have haccurate := accurate_of_counted (counted_official hstart hr hopcode) hpos
  refine ⟨eq_of_beq haccurate.complete, BusAccess.iterate_nesClock_nesLoadedCart s _, ?_, ?_⟩
  · rw [view_settled haccurate hpos, nesClock_view hr hopcode hhonoured hstart]
  · rw [haccurate.settled _ hpos le_rfl]

/-- The zero flag that a load leaves: a clearing call for the sign takes it away. -/
theorem zero_zn (P r : U8) : getflag (applyWrites P (zn r)) .Z = (getflag P .Z && r.getLsbD 7) := by
  obtain ⟨hZ, -⟩ := getflag_written P (by decide : NesPFlags.Z ≠ .N) (r == 0x0) (asBool (r &&& 0x80))
  have hboth := zero_and_sign r
  rw [zn, hZ, asBool_bit7]
  cases hr : r == 0x0 <;> cases hs : r.getLsbD 7 <;> simp_all

/-- The decrements write the zero flag last, so that it can be set too often only. -/
theorem zero_nz (P r : U8) : getflag (applyWrites P [(.N, asBool (r &&& 0x80)), (.Z, r &&& 0xFF == 0x0)]) .Z =
    (r == 0x0 || getflag P .Z && r.getLsbD 7) := by
  obtain ⟨-, hZ⟩ := getflag_written P (by decide : NesPFlags.N ≠ .Z) (asBool (r &&& 0x80)) (r &&& 0xFF == 0x0)
  rw [hZ, asBool_bit7, and_255, Bool.and_comm (r.getLsbD 7)]

theorem getflag_setU {P : U8} {f : NesPFlags} (hf : f ≠ .U) : getflag (setflag P .U true) f = getflag P f := by
  rw [getflag_setflag_of_ne P hf.symm, Bool.true_and]

theorem zero_load (h : s.nesCycles = 0) (hr : r ∈ documented) (hop : nesCpuRead s s.PC false = r.opcode)
    (hhonoured : Honoured r) (hload : r.op = .LDA ∨ r.op = .LDX) (hrel : r.mode ≠ .REL) :
    getflag (nesClock s).P .Z =
      (getflag s.P .Z && (operandOf (cartBus s.nesLoadedCart) (InstructionRefinement.view s) r.mode).getLsbD 7) := by
  have hwrites : flagWrites (addressed s) r.op = zn (operand (addressed s)) := by
    rcases hload with he | he <;> rw [he] <;> rfl
  have hkind : r.op ≠ .PLP ∧ r.op ≠ .RTI := by
    rcases hload with he | he <;> rw [he] <;> decide
  rw [nesClock_flags h hr hop hkind (by decide), hwrites, zero_zn, getflag_setU (by decide),
    operand_addressed hr hop hhonoured hrel]

theorem zero_DEX (h : s.nesCycles = 0) (hr : r ∈ documented) (hop : nesCpuRead s s.PC false = r.opcode)
    (hdex : r.op = .DEX) : getflag (nesClock s).P .Z =
      (s.X - 1 == 0x0 || getflag s.P .Z && (s.X - 1).getLsbD 7) := by
  have hwrites : flagWrites (addressed s) r.op =
      [(.N, asBool ((s.X - 1) &&& 0x80)), (.Z, (s.X - 1) &&& 0xFF == 0x0)] := by
    rw [hdex, flagWrites, addressed_X]
  have hkind : r.op ≠ .PLP ∧ r.op ≠ .RTI := by rw [hdex]; decide
  rw [nesClock_flags h hr hop hkind (by decide), hwrites, zero_nz, getflag_setU (by decide)]

theorem zero_kept (h : s.nesCycles = 0) (hr : r ∈ documented) (hop : nesCpuRead s s.PC false = r.opcode)
    (hkeeps : r.op = .STA ∨ r.op = .BNE) : getflag (nesClock s).P .Z = getflag s.P .Z := by
  have hwrites : flagWrites (addressed s) r.op = [] := by
    rcases hkeeps with he | he <;> rw [he] <;> rfl
  have hkind : r.op ≠ .PLP ∧ r.op ≠ .RTI := by
    rcases hkeeps with he | he <;> rw [he] <;> decide
  rw [nesClock_flags h hr hop hkind (by decide), hwrites]
  exact getflag_setU (by decide)

end Rules

section Instructions

variable {cart : NesCartidge} {A X Y SP : U8} {PC : U16} {mem : U16 → U8} {zero : Bool}

/-- The clock that an indexed read takes longer where it leaves the page. -/
def crossing (base : U16) (index : U8) : Nat := if hiByte (base + index.setWidth 16) ≠ hiByte base then 1 else 0

theorem documentedCount_straight {r : Row} {s : Nes} (hmode : r.mode ∉ [.ABX, .ABY, .IZY])
    (htaken : taken s.P r.op = false) : documentedCount r s = r.cycles := by
  rw [documentedCount, if_neg fun h => hmode h.2.1, htaken]
  rfl

theorem takes_LDX (hop : (cartBus cart).read mem PC = 0xA2) {m : U8} (hm : (cartBus cart).read mem (PC + 1) = m) :
    Takes nesClock (Stands cart ⟨A, X, Y, SP, PC, mem⟩ zero) 2
      (Stands cart ⟨A, m, Y, SP, PC + 2, mem⟩ (zero && m.getLsbD 7)) := by
  subst hm
  intro s hs
  have hr : (⟨.LDX, .IMM, 0xA2, 2⟩ : Row) ∈ documented := by decide +kernel
  have h := hs.instruction hr hop (by decide)
  obtain ⟨hstart, rfl, hview, rfl⟩ := hs
  obtain ⟨rfl, rfl, rfl, rfl, rfl, rfl⟩ := Cpu.mk.inj hview
  rw [zero_load hstart hr ((read_view s s.PC).symm.trans hop) (by decide) (Or.inr rfl) (by decide),
    documentedCount_straight (by decide) rfl] at h
  exact h

theorem takes_DEX (hop : (cartBus cart).read mem PC = 0xCA) :
    Takes nesClock (Stands cart ⟨A, X, Y, SP, PC, mem⟩ zero) 2
      (Stands cart ⟨A, X - 1, Y, SP, PC + 1, mem⟩ (X - 1 == 0x0 || zero && (X - 1).getLsbD 7)) := by
  intro s hs
  have hr : (⟨.DEX, .IMP, 0xCA, 2⟩ : Row) ∈ documented := by decide +kernel
  have h := hs.instruction hr hop (by decide)
  obtain ⟨hstart, rfl, hview, rfl⟩ := hs
  obtain ⟨rfl, rfl, rfl, rfl, rfl, rfl⟩ := Cpu.mk.inj hview
  rw [zero_DEX hstart hr ((read_view s s.PC).symm.trans hop) rfl, documentedCount_straight (by decide) rfl] at h
  exact h

theorem takes_LDA (hop : (cartBus cart).read mem PC = 0xBD) {src : U16}
    (hsrc : wordOf ((cartBus cart).read mem (PC + 1)) ((cartBus cart).read mem (PC + 2)) = src) {m : U8}
    (hm : (cartBus cart).read mem (src + X.setWidth 16) = m) :
    Takes nesClock (Stands cart ⟨A, X, Y, SP, PC, mem⟩ zero) (4 + crossing src X)
      (Stands cart ⟨m, X, Y, SP, PC + 3, mem⟩ (zero && m.getLsbD 7)) := by
  subst hm
  subst hsrc
  intro s hs
  have hr : (⟨.LDA, .ABX, 0xBD, 4⟩ : Row) ∈ documented := by decide +kernel
  have h := hs.instruction hr hop (by decide)
  obtain ⟨hstart, rfl, hview, rfl⟩ := hs
  obtain ⟨rfl, rfl, rfl, rfl, rfl, rfl⟩ := Cpu.mk.inj hview
  have hcount : documentedCount ⟨.LDA, .ABX, 0xBD, 4⟩ s =
      4 + crossing (wordOperand (cartBus s.nesLoadedCart) (InstructionRefinement.view s)) s.X := by
    rw [documentedCount, crossing, wordOperand_view, operandWord_fetchOpcode]
    simp [Crosses, readingOps, taken, baseAddress, indexOf]
  rw [zero_load hstart hr ((read_view s s.PC).symm.trans hop) (by decide) (Or.inl rfl) (by decide), hcount] at h
  exact h

theorem takes_STA (hop : (cartBus cart).read mem PC = 0x9D) {dst : U16}
    (hdst : wordOf ((cartBus cart).read mem (PC + 1)) ((cartBus cart).read mem (PC + 2)) = dst) :
    Takes nesClock (Stands cart ⟨A, X, Y, SP, PC, mem⟩ zero) 5
      (Stands cart ⟨A, X, Y, SP, PC + 3, ramWrite mem (dst + X.setWidth 16) A⟩ zero) := by
  subst hdst
  intro s hs
  have hr : (⟨.STA, .ABX, 0x9D, 5⟩ : Row) ∈ documented := by decide +kernel
  have h := hs.instruction hr hop (by decide)
  obtain ⟨hstart, rfl, hview, rfl⟩ := hs
  obtain ⟨rfl, rfl, rfl, rfl, rfl, rfl⟩ := Cpu.mk.inj hview
  have hcount : documentedCount ⟨.STA, .ABX, 0x9D, 5⟩ s = 5 := by simp [documentedCount, readingOps, taken]
  rw [zero_kept hstart hr ((read_view s s.PC).symm.trans hop) (Or.inl rfl), hcount] at h
  exact h

theorem takes_BNE (hop : (cartBus cart).read mem PC = 0xD0) {offset : U8}
    (hoffset : (cartBus cart).read mem (PC + 1) = offset) {target : U16}
    (htarget : PC + 2 + offset.signExtend 16 = target) :
    Takes nesClock (Stands cart ⟨A, X, Y, SP, PC, mem⟩ zero)
      (if zero then 2 else 3 + if hiByte target ≠ hiByte (PC + 2) then 1 else 0)
      (Stands cart ⟨A, X, Y, SP, if zero then PC + 2 else target, mem⟩ zero) := by
  subst htarget
  subst hoffset
  intro s hs
  have hr : (⟨.BNE, .REL, 0xD0, 2⟩ : Row) ∈ documented := by decide +kernel
  have h := hs.instruction hr hop (by decide)
  obtain ⟨hstart, rfl, hview, rfl⟩ := hs
  obtain ⟨rfl, rfl, rfl, rfl, rfl, rfl⟩ := Cpu.mk.inj hview
  have htarget : branchTarget s = address (cartBus s.nesLoadedCart) (InstructionRefinement.view s) .REL := by
    rw [branchTarget, followingPC, address, byteOperand_view]
    rfl
  have hcount : documentedCount ⟨.BNE, .REL, 0xD0, 2⟩ s = if getflag s.P .Z then 2 else
      3 + if hiByte (branchTarget s) ≠ hiByte (followingPC s) then 1 else 0 := by
    rw [documentedCount, if_neg fun hread => absurd hread.1 (by decide), taken]
    cases getflag s.P .Z with
    | true => rfl
    | false => exact (Nat.add_assoc 2 1 _).symm
  have hexec : exec (cartBus s.nesLoadedCart) ⟨.BNE, .REL, 0xD0, 2⟩ s.P (InstructionRefinement.view s) =
      { InstructionRefinement.view s with PC := if getflag s.P .Z then s.PC + 2 else branchTarget s } := by
    rw [exec, perform, taken, htarget]
    cases getflag s.P .Z with
    | false | true => rfl
  rw [zero_kept hstart hr ((read_view s s.PC).symm.trans hop) (Or.inr rfl), hcount, ← hview, hexec, htarget] at h
  exact h

end Instructions

end MetalNes.InstructionRules
