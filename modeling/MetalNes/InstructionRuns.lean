import MetalNes.InstructionRefinement
import MetalNes.ShiftForms

namespace MetalNes.InstructionRuns

open NesBus NesTable NesAddressing NesOperations NesClock Documented CycleCount BusAccess InstructionSet
open InstructionRefinement
open ShiftForms (addressed_nesOpcode)
open BranchLaws (branches)

section Instructions

theorem perform_branch {M : Type} (bus : Bus M) (accumulator : Bool) (ea : U16) (m m' P : U8) (c : Cpu M) {op : NesOp}
    (h : op ∈ branches) : perform bus accumulator ea m P c op = perform bus accumulator ea m' P c op := by
  simp only [branches, List.mem_cons, List.not_mem_nil, or_false] at h
  rcases h with rfl | rfl | rfl | rfl | rfl | rfl | rfl | rfl <;> rfl

theorem perform_implied {M : Type} (bus : Bus M) (ea ea' : U16) (m P : U8) (c : Cpu M) {op : NesOp}
    (h : op ∉ .STA :: .STX :: .STY :: .INC :: .DEC :: .JMP :: .JSR :: branches) :
    perform bus true ea m P c op = perform bus true ea' m P c op := by
  cases op with
  | STA | STX | STY | INC | DEC | JMP | JSR => simp at h
  | BCC | BCS | BEQ | BMI | BNE | BPL | BVC | BVS => simp [branches] at h
  | _ => rfl

theorem documented_relative : ∀ r ∈ documented, r.mode = .REL ↔ r.op ∈ branches := by
  decide +kernel

theorem documented_implied : ∀ r ∈ documented, r.mode = .IMP →
    r.op ∉ .STA :: .STX :: .STY :: .INC :: .DEC :: .JMP :: .JSR :: branches := by
  decide +kernel

variable {s : Nes} {r : Row} (hr : r ∈ documented) (hop : nesCpuRead s s.PC false = r.opcode) (hhonoured : Honoured r)

include hr hop hhonoured

theorem addressed_honoured : addressed s = (addressing r.mode (fetchOpcode s)).1 := by
  have hbrk : r.op ≠ .BRK := fun he => hhonoured.2.1 (by simp [he])
  rw [addressed_of_opcode hop, (documented_table r hr).2.2, if_neg hbrk]

theorem view_addressed : view (addressed s) = { view s with PC := s.PC + size r.mode } := by
  rw [addressed_honoured hr hop hhonoured, ← size_view s r.mode]
  simp only [view, addressing_A, addressing_X, addressing_Y, addressing_SP, addressing_nesCpuRam]
  rfl

theorem implied_iff : (nesInstruction (addressed s).nesOpcode).addrMode = .IMP ↔ decide (r.mode = .IMP) = true := by
  have hbrk : r.op ≠ .BRK := fun he => hhonoured.2.1 (by simp [he])
  rw [addressed_nesOpcode, hop, (documented_table r hr).2.2, if_neg hbrk, decide_eq_true_iff]

theorem address_addressed (himp : r.mode ≠ .IMP) (hrel : r.mode ≠ .REL) :
    (addressed s).nesAddrAbs = address (cartBus s.nesLoadedCart) (view s) r.mode := by
  rw [addressed_honoured hr hop hhonoured]
  refine address_view s fun hmem => ?_
  have hmodes := hhonoured.1
  simp only [List.mem_cons, List.not_mem_nil, or_false] at hmem hmodes
  tauto

theorem operand_addressed (hrel : r.mode ≠ .REL) :
    operand (addressed s) = operandOf (cartBus s.nesLoadedCart) (view s) r.mode := by
  have himplied := implied_iff hr hop hhonoured
  rw [operand, operandOf]
  by_cases himp : r.mode = .IMP
  · rw [if_pos (himplied.mpr (decide_eq_true himp)), if_pos himp, addressed_honoured hr hop hhonoured, himp]
    rfl
  · rw [if_neg fun he => himp (of_decide_eq_true (himplied.mp he)), if_neg himp,
      address_addressed hr hop hhonoured himp hrel]
    refine Eq.trans ?_ (read_view s _).symm
    exact nesCpuRead_congr (addressed_nesCpuRam s) (addressing_nesLoadedCart _ _) _ _

/-- The first clock of an instruction does all that it is documented to do. -/
theorem nesClock_view (h : s.nesCycles = 0) :
    view (nesClock s) = exec (cartBus s.nesLoadedCart) r s.P (view s) := by
  obtain ⟨-, hops, hasl⟩ := id hhonoured
  have hcart : (addressed s).nesLoadedCart = s.nesLoadedCart := addressing_nesLoadedCart _ _
  have hclock : view (nesClock s) = view (operate r.op (addressed s)).1 := by
    rw [nesClock_eq h, ← performed_official hr hop]
    rfl
  have hperform := @view_operate (addressed s) r.op hops _ (implied_iff hr hop hhonoured) (by simpa using hasl) _ rfl
  rw [hclock, hperform, view_addressed hr hop hhonoured, hcart, addressed_P, perform_setflag _ _ _ _ _ _ hops, exec]
  by_cases hrel : r.mode = .REL
  · have hbranch := (documented_relative r hr).mp hrel
    have htarget : (addressed s).PC + (addressed s).nesAddrRel =
        address (cartBus s.nesLoadedCart) (view s) r.mode := by
      rw [addressed_honoured hr hop hhonoured, hrel]
      exact target_view s
    rw [if_pos hbranch, htarget]
    exact perform_branch _ _ _ _ _ _ _ hbranch
  · have hplain : ¬ r.op ∈ branches := fun hb => hrel ((documented_relative r hr).mpr hb)
    rw [operand_addressed hr hop hhonoured hrel, if_neg hplain]
    by_cases himp : r.mode = .IMP
    · rw [decide_eq_true himp]
      exact perform_implied _ _ _ _ _ _ (documented_implied r hr himp)
    · rw [address_addressed hr hop hhonoured himp hrel]
      rfl

end Instructions

section Runs

def rowAt (s : Nes) : Option Row := fetched (cartBus s.nesLoadedCart) (view s)

def clocksAt (s : Nes) : Nat := ((rowAt s).map fun r => documentedCount r s).getD 0

/-- The clocks up to the start of an instruction, by the documented counts of those before it. -/
def clocksTo (s : Nes) : Nat → Nat
  | 0 => 0
  | n + 1 => clocksTo s n + clocksAt (nesClock^[clocksTo s n] s)

def boundary (s : Nes) (n : Nat) : Nes := nesClock^[clocksTo s n] s

def HonouredAt (s : Nes) : Prop := ∃ r ∈ rowAt s, Honoured r

instance (s : Nes) : Decidable (HonouredAt s) := inferInstanceAs (Decidable (∃ r ∈ rowAt s, Honoured r))

/-- The status registers that the first instructions find. -/
def statuses (s : Nes) (n : Nat) : List U8 := (List.range n).map fun i => (boundary s i).P

/-- So many instructions have run as documented, in as many clocks as documented. -/
structure RunsAs (s : Nes) (n : Nat) : Prop where
  complete : nesInsComplete (boundary s n) = true
  view : view (boundary s n) = run (cartBus s.nesLoadedCart) (statuses s n) (view s)
  busy : ∀ i < n, ∀ k, clocksTo s i < k → k < clocksTo s (i + 1) → nesInsComplete (nesClock^[k] s) = false

theorem rowAt_spec {s : Nes} {r : Row} (h : rowAt s = some r) :
    r ∈ documented ∧ nesCpuRead s s.PC false = r.opcode := by
  rw [rowAt, fetched] at h
  have hfound := List.find?_some h
  have hopcode := of_decide_eq_true hfound
  exact ⟨List.mem_of_find?_eq_some h, (read_view s s.PC).symm.trans hopcode.symm⟩

theorem boundary_succ (s : Nes) (n : Nat) :
    boundary s (n + 1) = nesClock^[clocksAt (boundary s n)] (boundary s n) := by
  rw [boundary, clocksTo, Nat.add_comm, Function.iterate_add_apply]
  rfl

theorem boundary_accurate {s : Nes} (h : s.nesCycles = 0) {r : Row} (hrow : rowAt s = some r) :
    Accurate (clocksAt s) s ∧ 0 < clocksAt s := by
  obtain ⟨hr, hop⟩ := rowAt_spec hrow
  have hclocks : clocksAt s = documentedCount r s := by rw [clocksAt, hrow, Option.map_some, Option.getD_some]
  have hpos : 0 < documentedCount r s := by
    have hbase := (documented_cycles r hr).1
    rw [documentedCount]
    omega
  rw [hclocks]
  exact ⟨accurate_of_counted (counted_official h hr hop) hpos, hpos⟩

theorem view_settled {s : Nes} {N : Nat} (h : Accurate N s) (hpos : 0 < N) :
    view (nesClock^[N] s) = view (nesClock s) := by
  rw [h.settled N hpos le_rfl]
  rfl

theorem boundary_step {s : Nes} (h : s.nesCycles = 0) (hhonoured : HonouredAt s) :
    (nesClock^[clocksAt s] s).nesCycles = 0 ∧
      view (nesClock^[clocksAt s] s) = run (cartBus s.nesLoadedCart) [s.P] (view s) := by
  obtain ⟨r, hrow, hr⟩ := hhonoured
  obtain ⟨hdocumented, hop⟩ := rowAt_spec hrow
  obtain ⟨haccurate, hpos⟩ := boundary_accurate h hrow
  refine ⟨eq_of_beq haccurate.complete, ?_⟩
  have hfetched : fetched (cartBus s.nesLoadedCart) (view s) = some r := hrow
  rw [view_settled haccurate hpos, nesClock_view hdocumented hop hr h, run, hfetched]
  rfl

end Runs

/-- From the start of an instruction on, for every cartridge, RAM and registers, and as long
as the instructions that come are honoured: the registers and the memory go through the
documented instructions, each by the status register that it finds. -/
theorem runs_as_documented (s : Nes) (h : s.nesCycles = 0) (n : Nat) (hrun : ∀ i < n, HonouredAt (boundary s i)) :
    RunsAs s n := by
  have hcart : ∀ i, (boundary s i).nesLoadedCart = s.nesLoadedCart :=
    fun i => iterate_nesClock_nesLoadedCart s (clocksTo s i)
  induction n with
  | zero => exact ⟨by rw [nesInsComplete]; exact beq_iff_eq.mpr h, rfl, fun i hi => absurd hi (Nat.not_lt_zero i)⟩
  | succ n ih =>
      obtain ⟨hcomplete, hview, hbusy⟩ := ih fun i hi => hrun i (Nat.lt_succ_of_lt hi)
      have hstart : (boundary s n).nesCycles = 0 := eq_of_beq hcomplete
      have hlast := hrun n (Nat.lt_succ_self n)
      obtain ⟨hdone, hstep⟩ := boundary_step hstart hlast
      rw [← boundary_succ] at hdone hstep
      refine ⟨beq_iff_eq.mpr hdone, ?_, fun i hi k hlow hhigh => ?_⟩
      · rw [hstep, hcart, hview, ← run_append, statuses, statuses, List.range_succ, List.map_append]
        rfl
      · rcases Nat.lt_succ_iff_lt_or_eq.mp hi with hbefore | rfl
        · exact hbusy i hbefore k hlow hhigh
        · obtain ⟨r, hrow, -⟩ := hlast
          rw [clocksTo] at hhigh
          have hk : k = k - clocksTo s i + clocksTo s i := (Nat.sub_add_cancel hlow.le).symm
          rw [hk, Function.iterate_add_apply]
          exact (boundary_accurate hstart hrow).1.busy _ (Nat.sub_pos_of_lt hlow) (by rw [boundary]; omega)

/-- LDX #3, INX, STX $10, JSR $0210 and, there, INC $10. -/
def caller : Nes := ramMachine ([0xA2, 3, 0xE8, 0x86, 0x10, 0x20, 0x10, 0x02] ++ List.replicate 8 0 ++ [0xE6, 0x10])

theorem caller_runs : RunsAs caller 5 ∧ clocksTo caller 5 = 18 ∧ nesCpuRead (boundary caller 5) 0x10 false = 5 :=
  ⟨runs_as_documented caller rfl 5 (by decide +kernel), by decide +kernel, by decide +kernel⟩

end MetalNes.InstructionRuns
