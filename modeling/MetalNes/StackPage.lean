import MetalNes.NesClock
import MetalNes.NesEffects

namespace MetalNes.StackPage

open NesBus NesTable NesAddressing NesOperations NesClock Documented NesEffects

/-- What drives the processor: a clock, or one of the two interrupt lines. -/
inductive Event
  | clock | irq | nmi
  deriving DecidableEq, Repr

def apply : Event → Nes → Nes
  | .clock => nesClock
  | .irq => nesIrq
  | .nmi => nesNmirq

def run (s : Nes) (events : List Event) : Nes := events.foldl (fun t e => apply e t) s

def stateAt (s : Nes) (events : List Event) (i : Nat) : Nes := run s (events.take i)

def accesses (e : Event) (s : Nes) : List StackAccess := (apply e { s with stackLog := [] }).stackLog

def accessesAt (s : Nes) (events : List Event) (i : Nat) : List StackAccess :=
  match events[i]? with
  | some e => accesses e (stateAt s events i)
  | none => []

def stackOps : List NesOp := [.PHA, .PHP, .PLA, .PLP, .JSR, .RTS, .BRK, .RTI]

def UsesStack (e : Event) (s : Nes) : Prop :=
  match e with
  | .clock => s.nesCycles = 0 ∧ (nesInstruction (nesCpuRead s s.PC false)).operation ∈ stackOps
  | .irq => nesGetflag s .I = false
  | .nmi => True

def eventAccesses (e : Event) (s : Nes) : List StackAccess :=
  match e with
  | .clock =>
      if s.nesCycles = 0 then
        stackAccesses s.SP (nesInstruction (nesCpuRead s s.PC false)).operation
      else []
  | .irq => if nesGetflag s .I = false then stackAccesses s.SP .BRK else []
  | .nmi => stackAccesses s.SP .BRK

theorem interrupt_stackLog (s : Nes) (vector : U16) (cycles : U8) :
    (interrupt s vector cycles).stackLog = stackAccesses s.SP .BRK ++ s.stackLog := by
  simp only [interrupt, nesPush_eq]
  rfl

theorem apply_stackLog (e : Event) (s : Nes) :
    (apply e s).stackLog = eventAccesses e s ++ s.stackLog := by
  cases e with
  | clock =>
      by_cases h : s.nesCycles = 0
      · rw [apply, nesClock_stackLog h, performed, (operate_effect _ _).stackLog, addressed_SP,
          addressed_stackLog, eventAccesses, if_pos h]
      · rw [apply, nesClock_idle h, eventAccesses, if_neg h]
        rfl
  | irq =>
      rw [apply, nesIrq, eventAccesses]
      split
      · exact interrupt_stackLog s _ _
      · rfl
  | nmi => exact interrupt_stackLog s _ _

theorem accesses_eq (e : Event) (s : Nes) : accesses e s = eventAccesses e s := by
  have hlog := apply_stackLog e { s with stackLog := [] }
  rw [List.append_nil] at hlog
  rw [accesses, hlog]
  rfl

theorem stackAccesses_eq_nil (SP : U8) (op : NesOp) : stackAccesses SP op = [] ↔ op ∉ stackOps := by
  cases op <;> simp [stackAccesses, stackOps]

theorem eventAccesses_eq_nil (e : Event) (s : Nes) : eventAccesses e s = [] ↔ ¬ UsesStack e s := by
  cases e with
  | clock =>
      rw [eventAccesses, UsesStack, not_and]
      by_cases h : s.nesCycles = 0
      · rw [if_pos h, stackAccesses_eq_nil]
        exact ⟨fun hop _ => hop, fun himp => himp h⟩
      · rw [if_neg h]
        exact iff_of_true rfl fun h0 => absurd h0 h
  | irq =>
      rw [eventAccesses, UsesStack]
      split <;> simp_all [stackAccesses]
  | nmi => simp [eventAccesses, UsesStack, stackAccesses]

theorem stackAccesses_zeroPage (SP : U8) (op : NesOp) :
    ∀ a ∈ stackAccesses SP op, a.addr.toNat ≤ 0x00FF := by
  have hle : ∀ sp : U8, (nesStackAddr sp).toNat ≤ 0x00FF := by
    intro sp
    have hlt := sp.isLt
    rw [toNat_nesStackAddr]
    omega
  cases op <;> simp [stackAccesses, StackAccess.addr, hle]

theorem eventAccesses_zeroPage (e : Event) (s : Nes) :
    ∀ a ∈ eventAccesses e s, a.addr.toNat ≤ 0x00FF := by
  cases e with
  | clock | irq =>
      rw [eventAccesses]
      split
      · exact stackAccesses_zeroPage _ _
      · simp
  | nmi => exact stackAccesses_zeroPage s.SP .BRK

def storeOps : List NesOp := [.STA, .STX, .STY, .INC, .DEC, .ASL, .LSR, .ROL, .ROR]

structure ZeroPageStore (s : Nes) (addr : U16) : Prop where
  start : s.nesCycles = 0
  op : (nesInstruction (nesCpuRead s s.PC false)).operation ∈ storeOps
  mode : (nesInstruction (nesCpuRead s s.PC false)).addrMode ≠ .IMP
  target : (addressed s).nesAddrAbs = addr
  page : addr ≤ 0x00FF

/-- A store to the zero page leaves every byte as it is that is pulled later
without having been pushed in between. -/
def PulledUntouched (s : Nes) (events : List Event) : Prop :=
  ∀ i j addr, i < j → events[i]? = some .clock → ZeroPageStore (stateAt s events i) addr →
    .pull addr ∈ accessesAt s events j →
    (∀ k, i < k → k < j → .push addr ∉ accessesAt s events k) →
    (stateAt s events (i + 1)).nesCpuRam addr = (stateAt s events i).nesCpuRam addr

def InPageOne (s : Nes) (events : List Event) : Prop :=
  ∀ i, ∀ a ∈ accessesAt s events i, 0x0100 ≤ a.addr ∧ a.addr ≤ 0x01FF

def Isolated (s : Nes) (events : List Event) : Prop :=
  PulledUntouched s events ∧ InPageOne s events

theorem accessesAt_of_event {s : Nes} {events : List Event} {i : Nat} {e : Event}
    (h : events[i]? = some e) : accessesAt s events i = eventAccesses e (stateAt s events i) := by
  rw [accessesAt, h]
  exact accesses_eq e _

theorem accessesAt_zeroPage (s : Nes) (events : List Event) (i : Nat) :
    ∀ a ∈ accessesAt s events i, a.addr.toNat ≤ 0x00FF := by
  cases he : events[i]? with
  | none => simp [accessesAt, he]
  | some e =>
      rw [accessesAt_of_event he]
      exact eventAccesses_zeroPage e _

theorem inPageOne_iff (s : Nes) (events : List Event) :
    InPageOne s events ↔ ∀ i, accessesAt s events i = [] := by
  constructor
  · intro h i
    refine List.eq_nil_iff_forall_not_mem.mpr fun a ha => ?_
    have hlow := accessesAt_zeroPage s events i a ha
    have hhigh := BitVec.le_def.mp (h i a ha).1
    have hlit : (0x0100 : U16).toNat = 256 := rfl
    omega
  · intro h i a ha
    rw [h i] at ha
    cases ha

theorem accessesAt_eq_nil_iff (s : Nes) (events : List Event) (i : Nat) :
    accessesAt s events i = [] ↔ ∀ e, events[i]? = some e → ¬ UsesStack e (stateAt s events i) := by
  cases he : events[i]? with
  | none => simp [accessesAt, he]
  | some e =>
      rw [accessesAt_of_event he, eventAccesses_eq_nil]
      exact ⟨fun h f hf => Option.some.inj hf ▸ h, fun h => h e rfl⟩

/-- A run from reset isolates its stack exactly when it never reaches it. -/
theorem isolated_iff (s : Nes) (events : List Event) :
    Isolated (nesReset s) events ↔
      ∀ i e, events[i]? = some e → ¬ UsesStack e (stateAt (nesReset s) events i) := by
  have hpage : InPageOne (nesReset s) events ↔
      ∀ i e, events[i]? = some e → ¬ UsesStack e (stateAt (nesReset s) events i) := by
    rw [inPageOne_iff]
    exact forall_congr' fun i => accessesAt_eq_nil_iff (nesReset s) events i
  rw [Isolated, hpage]
  refine and_iff_right_of_imp fun h i j addr _ _ _ hpull _ => ?_
  -- without stack accesses there is no later pull
  rw [(accessesAt_eq_nil_iff (nesReset s) events j).mpr (h j)] at hpull
  cases hpull

/-- A cartridge whose program pushes A = 0, stores 5 in the cell $FD and pulls. -/
def aliasMachine : Nes :=
  { ramMachine [] with
    nesLoadedCart := { (ramMachine []).nesLoadedCart with
      prgMem := fun a => if a = 0x3FFD then 0x80 else [0x48, 0xA9, 0x05, 0x85, 0xFD, 0x68].getD a 0 } }

def aliasEvents : List Event := List.replicate (8 + 3 + 2 + 3 + 4) .clock

def Official (s : Nes) (events : List Event) : Prop :=
  ∀ i < events.length, (stateAt s events i).nesCycles = 0 →
    nesCpuRead (stateAt s events i) (stateAt s events i).PC false ∈ documented.map Row.opcode

theorem aliasMachine_not_isolated :
    Official (nesReset aliasMachine) aliasEvents ∧
      ¬ PulledUntouched (nesReset aliasMachine) aliasEvents ∧
      ¬ InPageOne (nesReset aliasMachine) aliasEvents := by
  refine ⟨?_, fun h => ?_, fun h => ?_⟩
  · unfold Official
    decide +kernel
  · have hstore : ZeroPageStore (stateAt (nesReset aliasMachine) aliasEvents 13) 0x00FD :=
      ⟨by decide +kernel, by decide +kernel, by decide +kernel, by decide +kernel, by decide +kernel⟩
    have hnopush : ∀ k, 13 < k → k < 16 →
        .push 0x00FD ∉ accessesAt (nesReset aliasMachine) aliasEvents k := by
      intro k hlo hhi
      obtain rfl | rfl : k = 14 ∨ k = 15 := by omega
      all_goals decide +kernel
    have hkeep := h 13 16 0x00FD (by decide) (by decide) hstore (by decide +kernel) hnopush
    revert hkeep
    decide +kernel
  · have hpush := h 8 (.push 0x00FD) (by decide +kernel)
    revert hpush
    decide +kernel

end MetalNes.StackPage
