import MetalNes.NesClock
import MetalNes.NesEffects

namespace MetalNes.BusAccess

open NesBus NesTable NesAddressing NesOperations NesClock NesEffects

/-- What a step asks of the instruction table and of the bus. -/
inductive BusUse
  | lookup (opcode : U8)
  | read (addr : U16)
  | write (addr : U16)
  deriving DecidableEq, Repr

def stackUse : StackAccess → BusUse
  | .push addr => .write addr
  | .pull addr => .read addr

def addressingUses (s : Nes) : NesAddrMode → List BusUse
  | .IMP | .IMM => []
  | .ZP0 | .REL => [.read s.PC]
  | .ZPX => [.read (s.PC + s.X.setWidth 16)]
  | .ZPY => [.read (s.PC + s.Y.setWidth 16)]
  | .ABS | .ABX | .ABY => [.read s.PC, .read (s.PC + 1)]
  | .IND =>
      let lo := (nesCpuRead s s.PC false).setWidth 16
      let ptr := operandWord s
      [.read s.PC, .read (s.PC + 1), .read (if lo = 0x00FF then ptr &&& 0xFF00 else ptr + 1),
        .read (ptr + 0)]
  | .IZX =>
      let val := (nesCpuRead s s.PC false).setWidth 16
      [.read s.PC, .read ((val + s.X.setWidth 16) &&& 0x00FF),
        .read ((val + s.X.setWidth 16 + 1) * 0x00FF)]
  | .IZY =>
      let val := (nesCpuRead s s.PC false).setWidth 16
      [.read s.PC, .read (val &&& 0x00FF), .read ((val + 1) &&& 0x00FF)]

def fetchUses (s : Nes) : List BusUse :=
  .lookup s.nesOpcode ::
    if (nesInstruction s.nesOpcode).addrMode = .IMP then [] else [.read s.nesAddrAbs]

def storeShiftedUses (s : Nes) : List BusUse :=
  .lookup s.nesOpcode ::
    if (nesInstruction s.nesOpcode).addrMode = .IMP then [] else [.write s.nesAddrAbs]

def stackUses (s : Nes) (op : NesOp) : List BusUse := (stackAccesses s.SP op).reverse.map stackUse

def operationUses (s : Nes) : NesOp → List BusUse
  | .ADC | .SBC | .AND | .ORA | .EOR | .LDA | .LDX | .LDY | .CMP | .CPX | .CPY | .BIT | .INX | .INY =>
      fetchUses s
  | .DEC | .INC => fetchUses s ++ [.write s.nesAddrAbs]
  | .ASL | .LSR | .ROL | .ROR => fetchUses s ++ storeShiftedUses s
  | .STA | .STX | .STY => [.write s.nesAddrAbs]
  | .BRK => stackUses s .BRK ++ [.read 0xFFFE, .read 0xFFFF]
  | op => stackUses s op

/-- An instruction is looked up for its cycles, its addressing mode and its
operation, besides what these ask for. -/
def clockUses (s : Nes) : List BusUse :=
  if s.nesCycles = 0 then
    let opcode := nesCpuRead s s.PC false
    .read s.PC :: .lookup opcode :: .lookup opcode ::
      addressingUses (fetchOpcode s) (nesInstruction opcode).addrMode ++
      .lookup opcode :: operationUses (addressed s) (nesInstruction opcode).operation
  else []

def resetUses : List BusUse := [.read 0xFFFC, .read 0xFFFD]

def withMemory (s : Nes) (ram : U16 → U8) (cart : NesCartidge) : Nes :=
  { s with nesCpuRam := ram, nesLoadedCart := cart }

def Agree (uses : List BusUse) (s t : Nes) : Prop :=
  ∀ addr, .read addr ∈ uses → nesCpuRead t addr false = nesCpuRead s addr false

variable {s : Nes} {ram : U16 → U8} {cart : NesCartidge}

section Agree

variable {uses uses' : List BusUse} {t : Nes}

theorem Agree.head {addr : U16} (h : Agree (.read addr :: uses) s t) :
    nesCpuRead t addr false = nesCpuRead s addr false := h addr List.mem_cons_self

theorem Agree.tail {u : BusUse} (h : Agree (u :: uses) s t) : Agree uses s t :=
  fun addr haddr => h addr (List.mem_cons_of_mem u haddr)

theorem Agree.left (h : Agree (uses ++ uses') s t) : Agree uses s t :=
  fun addr haddr => h addr (List.mem_append_left _ haddr)

theorem Agree.right (h : Agree (uses ++ uses') s t) : Agree uses' s t :=
  fun addr haddr => h addr (List.mem_append_right _ haddr)

end Agree

theorem addressing_reads (m : NesAddrMode) (h : Agree (addressingUses s m) s (withMemory s ram cart)) :
    addressing m (withMemory s ram cart) =
      (withMemory (addressing m s).1 ram cart, (addressing m s).2) := by
  cases m with
  | IMP | IMM => rfl
  | ZP0 | REL | ZPX | ZPY =>
      have hpc := h.head
      simp only [addressing, nesZP0, nesREL, nesZPX, nesZPY, zeroPageIndexed, withMemory] at hpc ⊢
      simp only [hpc]
  | ABS =>
      have hlo := h.head
      have hhi := h.tail.head
      simp only [addressing, nesABS, operandWord, withMemory] at hlo hhi ⊢
      rw [hlo, hhi]
  | ABX | ABY =>
      have hlo := h.head
      have hhi := h.tail.head
      simp only [addressing, nesABX, nesABY, absoluteIndexed, operandWord, withMemory] at hlo hhi ⊢
      rw [hlo, hhi]
      rfl
  | IND =>
      have hlo := h.head
      have hhi := h.tail.head
      have hhiAddr := h.tail.tail.head
      have hptr := h.tail.tail.tail.head
      simp only [addressing, nesIND, operandWord, withMemory] at hlo hhi hhiAddr hptr ⊢
      simp only [hlo, hhi, hhiAddr, hptr]
  | IZX =>
      have hval := h.head
      have hlo := h.tail.head
      have hhi := h.tail.tail.head
      simp only [addressing, nesIZX, withMemory] at hval hlo hhi ⊢
      rw [hval, hlo, hhi]
  | IZY =>
      have hval := h.head
      have hlo := h.tail.head
      have hhi := h.tail.tail.head
      simp only [addressing, nesIZY, withMemory] at hval hlo hhi ⊢
      rw [hval, hlo, hhi]
      rfl

theorem operand_reads (h : Agree (fetchUses s) s (withMemory s ram cart)) :
    operand (withMemory s ram cart) = operand s := by
  rw [operand, operand]
  by_cases himp : (nesInstruction s.nesOpcode).addrMode = .IMP
  · rw [if_pos himp]
    exact if_pos himp
  · rw [fetchUses, if_neg himp] at h
    rw [if_neg himp]
    exact (if_neg himp).trans h.tail.head

theorem nesFetch_reads (h : Agree (fetchUses s) s (withMemory s ram cart)) :
    nesFetch (withMemory s ram cart) = withMemory (nesFetch s) ram cart := by
  rw [nesFetch_eq, nesFetch_eq, operand_reads h]
  rfl

theorem branch_reads (taken : Bool) : branch (withMemory s ram cart) taken =
    (withMemory (branch s taken).1 ram cart, (branch s taken).2) := by
  cases taken with
  | false => rfl
  | true =>
      refine Prod.ext ?_ rfl
      rw [branch_eq, branch_eq]
      rfl

theorem operate_reads (op : NesOp) (h : Agree (operationUses s op) s (withMemory s ram cart)) :
    ∃ ram', operate op (withMemory s ram cart) =
      (withMemory (operate op s).1 ram' cart, (operate op s).2) := by
  cases op with
  | ADC | SBC | AND | ORA | EOR | LDA | LDX | LDY | CMP | CPX | CPY | BIT | INX | INY =>
      refine ⟨ram, ?_⟩
      simp only [operate, nesADC, nesSBC, nesAND, nesORA, nesEOR, nesLDA, nesLDX, nesLDY, nesCMP,
        nesCPX, nesCPY, nesBIT, nesINX, nesINY, nesFetch_reads h]
      rfl
  | DEC | INC =>
      simp only [operate, nesDEC, nesINC, nesFetch_reads h.left, storeCounted, nesCpuWrite_eq]
      exact ⟨_, rfl⟩
  | ASL | LSR | ROL | ROR =>
      simp only [operate, nesASL, nesLSR, nesROL, nesROR, nesFetch_reads h.left, storeShifted_eq]
      exact ⟨_, rfl⟩
  | STA | STX | STY =>
      simp only [operate, nesSTA, nesSTX, nesSTY, nesCpuWrite_eq]
      exact ⟨_, rfl⟩
  | PHA | PHP | JSR =>
      simp only [operate, nesPHA, nesPHP, nesJSR, nesPush_eq]
      exact ⟨_, rfl⟩
  | PLA | PLP =>
      refine ⟨ram, ?_⟩
      have hdata := h.head
      simp only [operate, nesPLA, nesPLP, nesPull, withMemory, nesCpuRead_stackAddr] at hdata ⊢
      rw [hdata]
      rfl
  | RTS =>
      refine ⟨ram, ?_⟩
      have hlo := h.head
      have hhi := h.tail.head
      simp only [operate, nesRTS, nesPull, withMemory, nesCpuRead_stackAddr] at hlo hhi ⊢
      rw [hlo, hhi]
  | RTI =>
      refine ⟨ram, ?_⟩
      have hP := h.head
      have hlo := h.tail.head
      have hhi := h.tail.tail.head
      simp only [operate, nesRTI, nesPull, withMemory, nesSetflag, nesCpuRead_stackAddr] at hP hlo hhi ⊢
      rw [hP, hlo, hhi]
  | BRK =>
      have hlo := h.right.head
      have hhi := h.right.tail.head
      have hrom : (0x8000 : U16) ≤ 0xFFFE ∧ (0x8000 : U16) ≤ 0xFFFF := by decide
      simp only [operate, nesBRK, nesPush_eq, withMemory, nesSetflag, nesCpuRead_rom _ hrom.1,
        nesCpuRead_rom _ hrom.2] at hlo hhi ⊢
      rw [hlo, hhi]
      exact ⟨_, rfl⟩
  | BCC | BCS | BEQ | BMI | BNE | BPL | BVC | BVS => exact ⟨ram, branch_reads _⟩
  | _ => exact ⟨ram, rfl⟩

theorem nesCpuRead_congr {s t : Nes} (hram : s.nesCpuRam = t.nesCpuRam)
    (hcart : s.nesLoadedCart = t.nesLoadedCart) (addr : U16) (readOnly : Bool) :
    nesCpuRead s addr readOnly = nesCpuRead t addr readOnly := by
  rw [nesCpuRead, nesCpuRead, hram, hcart]

theorem Agree.registers {uses : List BusUse} {t : Nes} (h : Agree uses s (withMemory s ram cart))
    (hram : t.nesCpuRam = s.nesCpuRam) (hcart : t.nesLoadedCart = s.nesLoadedCart) :
    Agree uses t (withMemory t ram cart) := by
  intro addr haddr
  rw [nesCpuRead_congr hram hcart, ← h addr haddr]
  exact nesCpuRead_congr rfl rfl addr false

theorem addressing_nesLoadedCart (m : NesAddrMode) (s : Nes) :
    (addressing m s).1.nesLoadedCart = s.nesLoadedCart := by cases m <;> rfl

section Start

variable (hstart : s.nesCycles = 0) (h : Agree (clockUses s) s (withMemory s ram cart))

include hstart h

theorem started_reads : started (withMemory s ram cart) =
    (withMemory (addressed s) ram cart, (started s).2) := by
  rw [clockUses, if_pos hstart] at h
  have hopcode := h.head
  have hmode := (h.tail.tail.tail.left.registers rfl rfl : Agree _ (fetchOpcode s) _)
  have hfetch : fetchOpcode (withMemory s ram cart) = withMemory (fetchOpcode s) ram cart := by
    simp only [fetchOpcode, nesSetflag, withMemory] at hopcode ⊢
    rw [hopcode]
  rw [started, hfetch]
  exact (congrArg (fun opcode => addressing (nesInstruction opcode).addrMode _) hopcode).trans
    (addressing_reads _ hmode)

theorem performed_reads : ∃ ram', performed (withMemory s ram cart) =
    (withMemory (performed s).1 ram' cart, (performed s).2) := by
  have haddressed := congrArg Prod.fst (started_reads hstart h)
  rw [clockUses, if_pos hstart] at h
  have hopcode := h.head
  have hoperation := (h.tail.tail.tail.right.tail.registers (addressed_nesCpuRam s)
    (addressing_nesLoadedCart _ _) : Agree _ (addressed s) _)
  obtain ⟨ram', hram'⟩ := operate_reads _ hoperation
  refine ⟨ram', ?_⟩
  have hstate : addressed (withMemory s ram cart) = withMemory (addressed s) ram cart := haddressed
  rw [performed, hstate]
  exact (congrArg (fun opcode => operate (nesInstruction opcode).operation _) hopcode).trans hram'

end Start

theorem nesClock_reads (h : Agree (clockUses s) s (withMemory s ram cart)) :
    ∃ ram', nesClock (withMemory s ram cart) = withMemory (nesClock s) ram' cart := by
  by_cases hstart : s.nesCycles = 0
  · obtain ⟨ram', hperformed⟩ := performed_reads hstart h
    refine ⟨ram', ?_⟩
    rw [nesClock_eq hstart, nesClock_eq (show (withMemory s ram cart).nesCycles = 0 from hstart),
      hperformed, started_reads hstart h]
    rfl
  · rw [nesClock_idle hstart]
    exact ⟨ram, nesClock_idle hstart⟩

theorem nesClock_nesLoadedCart (s : Nes) : (nesClock s).nesLoadedCart = s.nesLoadedCart := by
  obtain ⟨ram', hclock⟩ := @nesClock_reads s s.nesCpuRam s.nesLoadedCart fun _ _ => rfl
  have hcart := congrArg Nes.nesLoadedCart hclock
  exact hcart

theorem iterate_nesClock_nesLoadedCart (s : Nes) (n : Nat) :
    (nesClock^[n] s).nesLoadedCart = s.nesLoadedCart := by
  induction n with
  | zero => rfl
  | succ n ih => rw [Function.iterate_succ_apply', nesClock_nesLoadedCart, ih]

/-- Every cell that differs belongs to an address that is written. -/
def WritesOnly (uses : List BusUse) (ram ram' : U16 → U8) : Prop :=
  ∀ i, ram' i ≠ ram i → ∃ addr ≤ 0x1FFF, .write addr ∈ uses ∧ addr &&& 0x07FF = i

section Writes

variable {uses : List BusUse} {ram ram' : U16 → U8}

theorem WritesOnly.refl (uses : List BusUse) (ram : U16 → U8) : WritesOnly uses ram ram :=
  fun _ hi => absurd rfl hi

theorem WritesOnly.write (h : WritesOnly uses ram ram') {addr : U16} (haddr : .write addr ∈ uses)
    (data : U8) : WritesOnly uses ram (ramWrite ram' addr data) := by
  intro i hi
  by_cases hlow : addr ≤ 0x1FFF
  · by_cases hcell : addr &&& 0x07FF = i
    · exact ⟨addr, hlow, haddr, hcell⟩
    · rw [ramWrite, if_pos hlow, Function.update_of_ne (Ne.symm hcell)] at hi
      exact h i hi
  · rw [ramWrite, if_neg hlow] at hi
    exact h i hi

theorem WritesOnly.storeShifted (h : WritesOnly uses ram s.nesCpuRam)
    (hsub : storeShiftedUses s ⊆ uses) (a r : U8) :
    WritesOnly uses ram (storeShifted s a r).nesCpuRam := by
  rw [storeShifted_eq]
  by_cases himp : (nesInstruction s.nesOpcode).addrMode = .IMP
  · simpa only [if_pos himp] using h
  · rw [storeShiftedUses, if_neg himp] at hsub
    simpa only [if_neg himp] using h.write (hsub (List.mem_cons_of_mem _ (List.mem_singleton_self _))) r

end Writes

theorem operate_writes (op : NesOp) (s : Nes) :
    WritesOnly (operationUses s op) s.nesCpuRam (operate op s).1.nesCpuRam := by
  have hkept := WritesOnly.refl (operationUses s op) s.nesCpuRam
  cases op with
  | ADC | SBC | AND | ORA | EOR | LDA | LDX | LDY | CMP | CPX | CPY | BIT | INX | INY =>
      simp only [operate, nesADC, nesSBC, nesAND, nesORA, nesEOR, nesLDA, nesLDX, nesLDY, nesCMP,
        nesCPX, nesCPY, nesBIT, nesINX, nesINY, nesFetch_eq]
      exact hkept
  | STA | STX | STY =>
      simp only [operate, nesSTA, nesSTX, nesSTY, nesCpuWrite_eq]
      exact hkept.write (List.mem_singleton_self _) _
  | DEC | INC =>
      simp only [operate, nesDEC, nesINC, storeCounted, nesFetch_eq, nesCpuWrite_eq]
      exact hkept.write (List.mem_append_right _ (List.mem_singleton_self _)) _
  | ASL | LSR | ROL | ROR =>
      simp only [operate, nesASL, nesLSR, nesROL, nesROR, nesFetch_eq]
      refine WritesOnly.storeShifted ?_ ?_ _ _
      · exact hkept
      · exact List.subset_append_right (fetchUses s) (storeShiftedUses s)
  | PHA | PHP =>
      simp only [operate, nesPHA, nesPHP, nesPush_eq]
      exact hkept.write (List.mem_singleton_self _) _
  | JSR =>
      simp only [operate, nesJSR, nesPush_eq]
      exact (hkept.write List.mem_cons_self _).write (List.mem_cons_of_mem _ (List.mem_singleton_self _)) _
  | BRK =>
      simp only [operate, nesBRK, nesPush_eq]
      exact ((hkept.write List.mem_cons_self _).write (List.mem_cons_of_mem _ List.mem_cons_self) _).write
        (List.mem_cons_of_mem _ (List.mem_cons_of_mem _ List.mem_cons_self)) _
  | BCC | BCS | BEQ | BMI | BNE | BPL | BVC | BVS =>
      simp only [operate, nesBCC, nesBCS, nesBEQ, nesBMI, nesBNE, nesBPL, nesBVC, nesBVS, branch_eq]
      split
      all_goals exact hkept
  | _ => exact hkept

theorem nesClock_writes (s : Nes) : WritesOnly (clockUses s) s.nesCpuRam (nesClock s).nesCpuRam := by
  by_cases hstart : s.nesCycles = 0
  · rw [nesClock_nesCpuRam hstart, performed, ← addressed_nesCpuRam s]
    intro i hi
    obtain ⟨addr, hlow, hmem, hcell⟩ := operate_writes _ (addressed s) i hi
    refine ⟨addr, hlow, ?_, hcell⟩
    rw [clockUses, if_pos hstart]
    exact List.mem_append_right _ (List.mem_cons_of_mem _ hmem)
  · rw [nesClock_idle hstart]
    exact WritesOnly.refl _ _

theorem not_lookup_addressingUses (s : Nes) (m : NesAddrMode) (opcode : U8) :
    .lookup opcode ∉ addressingUses s m := by
  cases m <;> simp [addressingUses]

theorem not_lookup_stackUses (s : Nes) (op : NesOp) (opcode : U8) :
    .lookup opcode ∉ stackUses s op := by
  rw [stackUses, List.mem_map]
  rintro ⟨a, -, ha⟩
  cases a <;> cases ha

theorem lookup_operationUses {op : NesOp} {opcode : U8} (h : .lookup opcode ∈ operationUses s op) :
    opcode = s.nesOpcode := by
  have hfetch : .lookup opcode ∈ fetchUses s → opcode = s.nesOpcode := by
    rw [fetchUses]
    split <;> simp
  have hstore : .lookup opcode ∈ storeShiftedUses s → opcode = s.nesOpcode := by
    rw [storeShiftedUses]
    split <;> simp
  cases op with
  | ADC | SBC | AND | ORA | EOR | LDA | LDX | LDY | CMP | CPX | CPY | BIT | INX | INY => exact hfetch h
  | DEC | INC => exact (List.mem_append.mp h).elim hfetch fun hw => by simp at hw
  | ASL | LSR | ROL | ROR => exact (List.mem_append.mp h).elim hfetch hstore
  | STA | STX | STY => simp [operationUses] at h
  | BRK =>
      refine (List.mem_append.mp h).elim (fun hs => absurd hs (not_lookup_stackUses _ _ _)) fun hr => ?_
      simp at hr
  | _ => exact absurd h (not_lookup_stackUses _ _ _)

theorem lookup_clockUses (s : Nes) (opcode : U8) :
    .lookup opcode ∈ clockUses s ↔ s.nesCycles = 0 ∧ nesCpuRead s s.PC false = opcode := by
  by_cases hstart : s.nesCycles = 0
  · rw [clockUses, if_pos hstart, and_iff_right hstart]
    constructor
    · intro h
      simp only [List.mem_cons, List.mem_append, BusUse.lookup.injEq, reduceCtorEq, false_or,
        or_false, not_lookup_addressingUses] at h
      rcases h with (h | h) | h | h
      · exact h.symm
      · exact h.symm
      · exact h.symm
      · have hop := lookup_operationUses h
        rw [hop, addressed, started, addressing_nesOpcode]
        rfl
    · rintro rfl
      exact List.mem_cons_of_mem _ List.mem_cons_self
  · rw [clockUses, if_neg hstart]
    exact iff_of_false (by simp) fun h => hstart h.1

end MetalNes.BusAccess
