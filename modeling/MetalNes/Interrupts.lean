import MetalNes.NesStack
import MetalNes.Documented

namespace MetalNes.Interrupts

open NesBus NesTable NesAddressing NesOperations NesClock NesStack Documented

inductive Interrupt
  | brk | irq | nmi
  deriving DecidableEq, Repr

def enter : Interrupt → Nes → Nes
  | .brk => nesClock
  | .irq => nesIrq
  | .nmi => nesNmirq

/-- BRK is fetched between instructions; a request is taken while I is clear; the
non-maskable interrupt comes at any time. -/
def Arrives (s : Nes) : Interrupt → Prop
  | .brk => s.nesCycles = 0 ∧ nesCpuRead s s.PC false = 0x00
  | .irq => nesGetflag s .I = false
  | .nmi => True

def handled (k : Interrupt) (s : Nes) : Nes := nesClock (settle (enter k s))

def resumption (s : Nes) : Interrupt → U16
  | .brk => s.PC + 2
  | .irq | .nmi => s.PC

/-- Nothing the program can observe differs, and it goes on where it should. -/
structure Transparent (k : Interrupt) (s : Nes) : Prop where
  A : (handled k s).A = s.A
  X : (handled k s).X = s.X
  Y : (handled k s).Y = s.Y
  SP : (handled k s).SP = s.SP
  flags : ∀ f ∈ programFlags, getflag (handled k s).P f = getflag s.P f
  PC : (handled k s).PC = resumption s k

structure Entered (s e : Nes) (P : U8) (PC : U16) : Prop where
  A : e.A = s.A
  X : e.X = s.X
  Y : e.Y = s.Y
  SP : e.SP = s.SP - 3
  stacked : Stacked e [P, loByte PC, hiByte PC]

theorem Entered.of_push {s e : Nes} {P : U8} {PC : U16}
    (hA : e.A = s.A) (hX : e.X = s.X) (hY : e.Y = s.Y)
    (hSP : e.SP = (nesPush (pushWord s PC) P).SP)
    (hram : e.nesCpuRam = (nesPush (pushWord s PC) P).nesCpuRam) : Entered s e P PC := by
  have hempty : Stacked s [] := trivial
  have hframe := (hempty.pushWord (by simp) PC).push (by simp) P
  refine ⟨hA, hX, hY, ?_, hframe.congr hram hSP⟩
  rw [hSP]
  simp only [pushWord, nesPush_eq, sub_sub]
  rfl

def requestP (P : U8) : U8 := setflag (setflag (setflag P .B false) .U true) .I true

def breakP (P : U8) : U8 := setflag (setflag (setflag P .U true) .I true) .B true

theorem interrupt_entered (s : Nes) (vector : U16) (cycles : U8) :
    Entered s (interrupt s vector cycles) (requestP s.P) s.PC := by
  apply Entered.of_push <;> simp only [interrupt, pushWord, nesPush_eq] <;> rfl

theorem nesBRK_entered (s : Nes) :
    Entered s (nesBRK s).1 (setflag (setflag s.P .I true) .B true) (s.PC + 1) := by
  apply Entered.of_push <;> simp only [nesBRK, nesSetflag, pushWord, nesPush_eq]

/-- The mode of BRK steps over a byte, and so does its handler: three bytes in all. -/
theorem brk_entered {s : Nes} (h : Arrives s .brk) :
    Entered s (nesClock s) (breakP s.P) (s.PC + 3) := by
  have hperformed : performed s = nesBRK (addressed s) := performed_of_opcode h.2
  have hbrk := nesBRK_entered (addressed s)
  have hmode : (nesInstruction 0x00).addrMode = .IMM := by decide +kernel
  have hPC : (addressed s).PC = s.PC + 1 + 1 := by
    rw [addressed_of_opcode h.2, hmode]
    rfl
  have hsum : s.PC + 1 + 1 + 1 = s.PC + 3 := by
    rw [add_assoc, add_assoc]
    rfl
  obtain ⟨hA, hX, hY, hSP, hstacked⟩ := hbrk
  rw [hPC, hsum, addressed_P] at hstacked
  rw [addressed_A, ← hperformed, ← nesClock_A h.1] at hA
  rw [addressed_X, ← hperformed, ← nesClock_X h.1] at hX
  rw [addressed_Y, ← hperformed, ← nesClock_Y h.1] at hY
  rw [addressed_SP, ← hperformed, ← nesClock_SP h.1] at hSP
  rw [← hperformed] at hstacked
  exact ⟨hA, hX, hY, hSP, hstacked.congr (nesClock_nesCpuRam h.1) (nesClock_SP h.1)⟩

def savedP (P : U8) : Interrupt → U8
  | .brk => breakP P
  | .irq | .nmi => requestP P

def savedPC (s : Nes) : Interrupt → U16
  | .brk => s.PC + 3
  | .irq | .nmi => s.PC

theorem enter_entered {s : Nes} {k : Interrupt} (h : Arrives s k) :
    Entered s (enter k s) (savedP s.P k) (savedPC s k) := by
  cases k with
  | brk => exact brk_entered h
  | irq =>
      have htaken : nesIrq s = interrupt s 0xFFFE 7 := if_pos h
      rw [enter, htaken]
      exact interrupt_entered s _ _
  | nmi => exact interrupt_entered s _ _

theorem nesRTI_stacked {s : Nes} {P : U8} {PC : U16} (h : Stacked s [P, loByte PC, hiByte PC]) :
    (nesRTI s).1.A = s.A ∧ (nesRTI s).1.X = s.X ∧ (nesRTI s).1.Y = s.Y ∧
      (nesRTI s).1.SP = s.SP + 3 ∧ (nesRTI s).1.PC = PC ∧
      (nesRTI s).1.P = setflag (setflag P .B true) .U true := by
  obtain ⟨hP, hrest⟩ := h.pull
  have hword := (hrest.congr (t := { (nesPull s).1 with
    P := setflag (setflag (nesPull s).2 .B true) .U true }) rfl rfl).pullWord.1
  have hSP : s.SP + 1 + 1 + 1 = s.SP + 3 := by
    rw [add_assoc, add_assoc]
    rfl
  rw [nesRTI_eq]
  refine ⟨rfl, rfl, rfl, hSP, hword, ?_⟩
  rw [← hP]
  rfl

theorem getflag_setflag_bookkeeping {f : NesPFlags} (hf : f ∈ programFlags) (P : U8) :
    getflag (setflag P .U true) f = getflag P f ∧ getflag (setflag P .B true) f = getflag P f := by
  have hne : NesPFlags.U ≠ f ∧ NesPFlags.B ≠ f := by
    revert f
    decide
  rw [getflag_setflag_of_ne P hne.1, getflag_setflag_of_ne P hne.2, Bool.true_and]
  exact ⟨rfl, rfl⟩

theorem Entered.returned {s e : Nes} {P : U8} {PC : U16} (h : Entered s e P PC)
    (hrti : nesCpuRead e e.PC false = 0x40) :
    (nesClock (settle e)).A = s.A ∧ (nesClock (settle e)).X = s.X ∧
      (nesClock (settle e)).Y = s.Y ∧ (nesClock (settle e)).SP = s.SP ∧
      (nesClock (settle e)).PC = PC ∧
      ∀ f ∈ programFlags, getflag (nesClock (settle e)).P f = getflag P f := by
  rw [settle_eq]
  generalize hr : ({ e with nesCycles := 0 } : Nes) = r
  have h0 : r.nesCycles = 0 := by rw [← hr]
  have hop : nesCpuRead r r.PC false = 0x40 := by rw [← hr]; exact hrti
  have hentered : Entered s r P PC := by
    rw [← hr]
    exact ⟨h.A, h.X, h.Y, h.SP, h.stacked.congr rfl rfl⟩
  have hperformed : performed r = nesRTI (addressed r) := performed_of_opcode hop
  obtain ⟨hA, hX, hY, hSP, hPC, hP⟩ :=
    nesRTI_stacked (hentered.stacked.congr (addressed_nesCpuRam r) (addressed_SP r))
  rw [nesClock_A h0, nesClock_X h0, nesClock_Y h0, nesClock_SP h0, nesClock_PC h0, nesClock_P h0,
    hperformed, hA, hX, hY, hSP, hPC, hP, addressed_A, addressed_X, addressed_Y, addressed_SP,
    hentered.SP, sub_add_cancel]
  refine ⟨hentered.A, hentered.X, hentered.Y, rfl, rfl, fun f hf => ?_⟩
  have hb := getflag_setflag_bookkeeping hf
  rw [(hb _).1, (hb _).1, (hb _).2]

/-- Of all that an interrupt has to restore, the entry and RTI can fail in the
flags and in the place of return. -/
theorem transparent_iff_saved {s : Nes} {k : Interrupt} (h : Arrives s k)
    (hrti : nesCpuRead (enter k s) (enter k s).PC false = 0x40) :
    Transparent k s ↔ (∀ f ∈ programFlags, getflag (savedP s.P k) f = getflag s.P f) ∧
      savedPC s k = resumption s k := by
  obtain ⟨hA, hX, hY, hSP, hPC, hP⟩ := (enter_entered h).returned hrti
  constructor
  · intro ht
    exact ⟨fun f hf => (hP f hf).symm.trans (ht.flags f hf), hPC.symm.trans ht.PC⟩
  · rintro ⟨hflags, hplace⟩
    exact ⟨hA, hX, hY, hSP, fun f hf => (hP f hf).trans (hflags f hf), hPC.trans hplace⟩

theorem getflag_requestP {f : NesPFlags} (hf : f ∈ programFlags) (P : U8) :
    getflag (requestP P) f = decide (f = .I) := by
  have hU := (getflag_setflag_bookkeeping hf (setflag P .B false)).1
  have hB : NesPFlags.B ≠ f := by
    rintro rfl
    revert hf
    decide
  by_cases hI : f = .I
  · subst hI
    rw [requestP, getflag_setflag_self]
    rfl
  · rw [requestP, getflag_setflag_of_ne _ (Ne.symm hI), Bool.true_and, hU,
      getflag_setflag_of_ne _ hB, Bool.false_and, decide_eq_false hI]

def TransparentCondition (k : Interrupt) (s : Nes) : Prop :=
  k = .nmi ∧ getflag s.P .I = true ∧ ∀ f ∈ programFlags, f ≠ .I → getflag s.P f = false

theorem requestP_keeps_iff (P : U8) :
    (∀ f ∈ programFlags, getflag (requestP P) f = getflag P f) ↔
      getflag P .I = true ∧ ∀ f ∈ programFlags, f ≠ .I → getflag P f = false := by
  constructor
  · intro h
    refine ⟨(h .I (by decide)).symm.trans (getflag_requestP (by decide) P), fun f hf hne => ?_⟩
    rw [← h f hf, getflag_requestP hf, decide_eq_false hne]
  · rintro ⟨hI, hrest⟩ f hf
    rw [getflag_requestP hf]
    by_cases he : f = .I
    · rw [he, hI, decide_eq_true rfl]
    · rw [hrest f hf he, decide_eq_false he]

/-- Only a non-maskable interrupt that finds I set and the other flags clear is
transparent to the program. -/
theorem transparent_iff (k : Interrupt) (s : Nes) (h : Arrives s k)
    (hrti : nesCpuRead (enter k s) (enter k s).PC false = 0x40) :
    Transparent k s ↔ TransparentCondition k s := by
  rw [transparent_iff_saved h hrti]
  cases k with
  | brk =>
      have hplace : savedPC s .brk ≠ resumption s .brk := by
        intro he
        have hlit := add_left_cancel (a := s.PC) he
        revert hlit
        decide
      exact iff_of_false (fun hs => hplace hs.2) (fun hc => by cases hc.1)
  | irq =>
      refine iff_of_false (fun hs => ?_) (fun hc => by cases hc.1)
      have hset := ((requestP_keeps_iff s.P).mp hs.1).1
      rw [Arrives, nesGetflag, hset] at h
      cases h
  | nmi =>
      have hkeeps := requestP_keeps_iff s.P
      exact ⟨fun hs => ⟨rfl, hkeeps.mp hs.1⟩, fun hc => ⟨hkeeps.mpr hc.2, rfl⟩⟩

/-- A BRK in RAM, and a cartridge whose vectors all lead to an RTI at $8000. -/
def handlerMachine (P : U8) : Nes :=
  { ramMachine [0x00] with
    P
    nesLoadedCart := { (ramMachine []).nesLoadedCart with
      prgMem := fun a => if a = 0 then 0x40 else if a = 0x3FFB ∨ a = 0x3FFF then 0x80 else 0 } }

theorem transparent_nmi : Transparent .nmi (handlerMachine 0x24) :=
  (transparent_iff .nmi (handlerMachine 0x24) trivial (by decide +kernel)).mpr
    ⟨rfl, by decide +kernel, by decide +kernel⟩

/-- BRK comes back one byte too far, and a request comes back with I set. -/
theorem brk_irq_observed :
    (Arrives (handlerMachine 0x24) .brk ∧
      nesCpuRead (enter .brk (handlerMachine 0x24)) (enter .brk (handlerMachine 0x24)).PC false = 0x40 ∧
      ¬ Transparent .brk (handlerMachine 0x24)) ∧
    (Arrives (handlerMachine 0x20) .irq ∧
      nesCpuRead (enter .irq (handlerMachine 0x20)) (enter .irq (handlerMachine 0x20)).PC false = 0x40 ∧
      ¬ Transparent .irq (handlerMachine 0x20)) := by
  refine ⟨⟨⟨rfl, by decide +kernel⟩, by decide +kernel, fun h => ?_⟩,
    ⟨rfl, by decide +kernel, fun h => ?_⟩⟩
  · have hPC := h.PC
    revert hPC
    decide +kernel
  · have hI := h.flags .I (by decide)
    revert hI
    decide +kernel

end MetalNes.Interrupts
