import MetalNes.FlagWrites
import MetalNes.Documented

namespace MetalNes.NesEffects

open NesBus NesTable NesOperations FlagWrites Documented

def stackAccesses (SP : U8) : NesOp → List StackAccess
  | .PHA | .PHP => [.push (nesStackAddr SP)]
  | .PLA | .PLP => [.pull (nesStackAddr (SP + 1))]
  | .JSR => [.push (nesStackAddr (SP - 1)), .push (nesStackAddr SP)]
  | .RTS => [.pull (nesStackAddr (SP + 1 + 1)), .pull (nesStackAddr (SP + 1))]
  | .BRK => [.push (nesStackAddr (SP - 1 - 1)), .push (nesStackAddr (SP - 1)), .push (nesStackAddr SP)]
  | .RTI =>
      [.pull (nesStackAddr (SP + 1 + 1 + 1)), .pull (nesStackAddr (SP + 1 + 1)),
        .pull (nesStackAddr (SP + 1))]
  | _ => []

def branchCycles (s : Nes) (op : NesOp) : Nat :=
  if taken s.P op then
    1 + if (s.PC + s.nesAddrRel) &&& 0xFF00 ≠ s.PC &&& 0xFF00 then 1 else 0
  else 0

/-- What an operation does besides its own work on the registers and the RAM. -/
structure Effect (op : NesOp) (s t : Nes) : Prop where
  P : op ≠ .PLP → op ≠ .RTI → t.P = applyWrites s.P (flagWrites s op)
  stackLog : t.stackLog = stackAccesses s.SP op ++ s.stackLog
  nesCycles : t.nesCycles = s.nesCycles + BitVec.ofNat 8 (branchCycles s op)

theorem branch_nesCycles (s : Nes) (t : Bool) :
    (branch s t).1.nesCycles = s.nesCycles + BitVec.ofNat 8 (if t then
      1 + if (s.PC + s.nesAddrRel) &&& 0xFF00 ≠ s.PC &&& 0xFF00 then 1 else 0 else 0) := by
  rw [branch_eq]
  cases t with
  | false => simp
  | true =>
      rw [if_pos rfl, if_pos rfl]
      by_cases hpage : (s.PC + s.nesAddrRel) &&& 0xFF00 ≠ s.PC &&& 0xFF00
      · rw [if_pos hpage, if_pos hpage, add_assoc]
        rfl
      · rw [if_neg hpage, if_neg hpage, add_assoc]
        rfl

theorem branch_frame (s : Nes) (t : Bool) :
    (branch s t).1.P = s.P ∧ (branch s t).1.stackLog = s.stackLog := by
  rw [branch_eq]
  cases t with
  | false | true => exact ⟨rfl, rfl⟩

theorem operate_effect (op : NesOp) (s : Nes) : Effect op s (operate op s).1 := by
  cases op with
  | BCC | BCS | BEQ | BMI | BNE | BPL | BVC | BVS =>
      refine ⟨fun _ _ => (branch_frame s _).1, (branch_frame s _).2, ?_⟩
      refine (branch_nesCycles s _).trans ?_
      simp [branchCycles, taken, nesGetflag]
  | PLP | RTI => exact ⟨fun hplp hrti => by contradiction, rfl, (add_zero _).symm⟩
  | JSR | BRK | PHA | PHP =>
      simp only [operate, nesJSR, nesBRK, nesPHA, nesPHP, nesPush_eq]
      exact ⟨fun _ _ => rfl, rfl, (add_zero _).symm⟩
  | STA | STX | STY =>
      simp only [operate, nesSTA, nesSTX, nesSTY, nesCpuWrite_eq]
      exact ⟨fun _ _ => rfl, rfl, (add_zero _).symm⟩
  | INC | DEC =>
      simp only [operate, nesINC, nesDEC, nesFetch_eq, storeCounted, nesCpuWrite_eq]
      exact ⟨fun _ _ => rfl, rfl, (add_zero _).symm⟩
  | ASL | LSR | ROL | ROR =>
      simp only [operate, nesASL, nesLSR, nesROL, nesROR, nesFetch_eq, storeShifted_eq]
      exact ⟨fun _ _ => rfl, rfl, (add_zero _).symm⟩
  | ADC | SBC | AND | ORA | EOR | LDA | LDX | LDY | CMP | CPX | CPY | BIT | INX | INY =>
      simp only [operate, nesADC, nesSBC, nesAND, nesORA, nesEOR, nesLDA, nesLDX, nesLDY, nesCMP,
        nesCPX, nesCPY, nesBIT, nesINX, nesINY, nesFetch_eq]
      exact ⟨fun _ _ => rfl, rfl, (add_zero _).symm⟩
  | _ => exact ⟨fun _ _ => rfl, rfl, (add_zero _).symm⟩

theorem operate_P {ops : List NesOp} (hops : .PLP ∉ ops ∧ .RTI ∉ ops) {op : NesOp} (h : op ∈ ops) (s : Nes) :
    (operate op s).1.P = applyWrites s.P (flagWrites s op) :=
  (operate_effect op s).P (fun he => hops.1 (he ▸ h)) fun he => hops.2 (he ▸ h)

end MetalNes.NesEffects
