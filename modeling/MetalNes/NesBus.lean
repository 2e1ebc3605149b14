import MetalNes.Words
import Mathlib.Logic.Function.Basic

namespace MetalNes.NesBus

/-- The mappers nes_get_mapper knows. -/
inductive NesMapper
  | zero
  deriving DecidableEq, Repr

structure NesCartidge where
  prgMem : Nat → U8
  prgSize : U32
  chrMem : Nat → U8
  chrSize : U32
  mapperId : U8
  prgBanks : U8
  chrBanks : U8
  mapper : NesMapper

/-- A stack access, by its bus address. -/
inductive StackAccess
  | push (addr : U16)
  | pull (addr : U16)
  deriving DecidableEq, Repr

def StackAccess.addr : StackAccess → U16
  | .push a | .pull a => a

/-- The registers and globals of the emulated machine. The log of stack accesses
is history only: no function of the machine reads it. -/
structure Nes where
  A : U8
  X : U8
  Y : U8
  P : U8
  SP : U8
  PC : U16
  nesTemp : U16
  nesFetched : U8
  nesAddrAbs : U16
  nesAddrRel : U16
  nesOpcode : U8
  nesCycles : U8
  nesCpuRam : U16 → U8
  nesLoadedCart : NesCartidge
  stackLog : List StackAccess

def nesMapperZeroRead (cart : NesCartidge) (addr : U16) : U8 :=
  if cart.prgBanks ≤ 1 then
    if 0x8000 ≤ addr ∧ addr ≤ 0xBFFF then cart.prgMem (addr.toNat - 0x8000)
    else if 0xC000 ≤ addr ∧ addr ≤ 0xFFFF then cart.prgMem (addr.toNat - 0xC000)
    else 0
  else 0

/-- The write handler looks at its arguments and does nothing with them. -/
def nesMapperZeroWrite (s : Nes) (_addr : U16) (_data : U8) : Nes := s

def NesMapper.read : NesMapper → NesCartidge → U16 → U8
  | .zero => nesMapperZeroRead

def NesMapper.write : NesMapper → Nes → U16 → U8 → Nes
  | .zero => nesMapperZeroWrite

/-- Every case of the register switch only breaks. -/
def nesCpuPpuRead (_addr : U16) (_readonly : Bool) : U8 := 0

def nesCpuPpuWrite (s : Nes) (_addr : U16) (_data : U8) : Nes := s

def nesCpuWrite (s : Nes) (addr : U16) (data : U8) : Nes :=
  if addr ≤ 0x1FFF then
    { s with nesCpuRam := Function.update s.nesCpuRam (addr &&& 0x07FF) data }
  else if 0x2000 ≤ addr ∧ addr ≤ 0x3FFF then nesCpuPpuWrite s (addr &&& 0x0007) data
  else s.nesLoadedCart.mapper.write s addr data

def nesCpuRead (s : Nes) (addr : U16) (readOnly : Bool) : U8 :=
  if addr ≤ 0x1FFF then s.nesCpuRam (addr &&& 0x07FF)
  else if 0x2000 ≤ addr ∧ addr ≤ 0x3FFF then nesCpuPpuRead (addr &&& 0x0007) readOnly
  else s.nesLoadedCart.mapper.read s.nesLoadedCart addr

inductive NesPFlags
  | C | Z | I | D | B | U | V | N
  deriving DecidableEq, Repr

def NesPFlags.bit : NesPFlags → Nat
  | .C => 0 | .Z => 1 | .I => 2 | .D => 3 | .B => 4 | .U => 5 | .V => 6 | .N => 7

def NesPFlags.mask (flag : NesPFlags) : U8 := 1#8 <<< flag.bit

/-- The effect of nes_setflag on P. The clearing branch keeps the named flag and
drops the seven others. -/
def setflag (P : U8) (flag : NesPFlags) (clear : Bool) : U8 :=
  if clear then P ||| flag.mask else P &&& flag.mask

def nesSetflag (s : Nes) (flag : NesPFlags) (clear : Bool) : Nes :=
  { s with P := setflag s.P flag clear }

def getflag (P : U8) (flag : NesPFlags) : Bool :=
  let flagVal := P &&& flag.mask
  asBool (flagVal &&& 0xFF)

def nesGetflag (s : Nes) (flag : NesPFlags) : Bool := getflag s.P flag

/-- nes_stack_base is a global pointer that no code assigns. -/
def nesStackBase : U32 := 0

/-- The address expression shared by all pushes and pulls, cut to 16 bits by the
parameter type of the bus functions. -/
def nesStackAddr (SP : U8) : U16 := (nesStackBase + SP.setWidth 32).setWidth 16

def nesPush (s : Nes) (data : U8) : Nes :=
  let s' := nesCpuWrite s (nesStackAddr s.SP) data
  { s' with SP := s.SP - 1, stackLog := .push (nesStackAddr s.SP) :: s.stackLog }

def nesPull (s : Nes) : Nes × U8 :=
  let SP := s.SP + 1
  ({ s with SP, stackLog := .pull (nesStackAddr SP) :: s.stackLog },
    nesCpuRead s (nesStackAddr SP) false)

/-- The RAM after a bus write. -/
def ramWrite (ram : U16 → U8) (addr : U16) (data : U8) : U16 → U8 :=
  if addr ≤ 0x1FFF then Function.update ram (addr &&& 0x07FF) data else ram

theorem nesCpuWrite_eq (s : Nes) (addr : U16) (data : U8) :
    nesCpuWrite s addr data = { s with nesCpuRam := ramWrite s.nesCpuRam addr data } := by
  unfold nesCpuWrite ramWrite
  split
  · rfl
  · split
    · rfl
    · cases s.nesLoadedCart.mapper
      rfl

theorem nesPush_eq (s : Nes) (data : U8) :
    nesPush s data = { s with
      SP := s.SP - 1
      nesCpuRam := ramWrite s.nesCpuRam (nesStackAddr s.SP) data
      stackLog := .push (nesStackAddr s.SP) :: s.stackLog } := by
  rw [nesPush, nesCpuWrite_eq]

theorem nesStackAddr_eq (SP : U8) : nesStackAddr SP = SP.setWidth 16 := by
  apply BitVec.eq_of_toNat_eq
  have h := SP.isLt
  simp only [nesStackAddr, nesStackBase, BitVec.toNat_setWidth, BitVec.toNat_add]
  simp

theorem toNat_nesStackAddr (SP : U8) : (nesStackAddr SP).toNat = SP.toNat := by
  have h := SP.isLt
  rw [nesStackAddr_eq, BitVec.toNat_setWidth]
  omega

theorem nesStackAddr_le (SP : U8) : nesStackAddr SP ≤ 0x1FFF := by
  have h := SP.isLt
  have ha := toNat_nesStackAddr SP
  bv_omega

theorem stackIndex_eq (SP : U8) : nesStackAddr SP &&& 0x07FF = SP.setWidth 16 := by
  apply BitVec.eq_of_toNat_eq
  have h := SP.isLt
  have ha := toNat_nesStackAddr SP
  have hm : (0x07FF : U16).toNat = 2 ^ 11 - 1 := rfl
  rw [BitVec.toNat_and, ha, hm, Nat.and_two_pow_sub_one_eq_mod, BitVec.toNat_setWidth]
  omega

/-- The RAM cell behind a stack address, for each value of the stack pointer. -/
def stackCell (ram : U16 → U8) (SP : U8) : U8 := ram (SP.setWidth 16)

theorem setWidth_injective {p q : U8} (h : p.setWidth 16 = q.setWidth 16) : p = q := by
  have hp := p.isLt
  have hq := q.isLt
  bv_omega

theorem stackCell_ramWrite (ram : U16 → U8) (SP : U8) (data : U8) :
    stackCell (ramWrite ram (nesStackAddr SP) data) = Function.update (stackCell ram) SP data := by
  funext q
  rw [ramWrite, if_pos (nesStackAddr_le SP), stackIndex_eq, stackCell]
  by_cases h : q = SP
  · subst h; simp
  · have hne : q.setWidth 16 ≠ SP.setWidth 16 := fun he => h (setWidth_injective he)
    rw [Function.update_of_ne hne, Function.update_of_ne h, stackCell]

theorem nesCpuRead_stackAddr (s : Nes) (SP : U8) :
    nesCpuRead s (nesStackAddr SP) false = stackCell s.nesCpuRam SP := by
  rw [nesCpuRead, if_pos (nesStackAddr_le SP), stackIndex_eq, stackCell]

theorem nesCpuRead_rom (s : Nes) {a : U16} (ha : 0x8000 ≤ a) (readOnly : Bool) :
    nesCpuRead s a readOnly = s.nesLoadedCart.mapper.read s.nesLoadedCart a := by
  rw [nesCpuRead, if_neg (by bv_omega), if_neg (by bv_omega)]

theorem nesMapperZeroRead_one (cart : NesCartidge) (hbanks : cart.prgBanks ≤ 1) {a : U16}
    (ha : 0x8000 ≤ a) : nesMapperZeroRead cart a = cart.prgMem ((a.toNat - 0x8000) % 16384) := by
  have hlt := a.isLt
  rw [nesMapperZeroRead, if_pos hbanks]
  by_cases hlow : a ≤ 0xBFFF
  · have hmod : (a.toNat - 0x8000) % 16384 = a.toNat - 0x8000 := Nat.mod_eq_of_lt (by bv_omega)
    rw [if_pos ⟨ha, hlow⟩, hmod]
  · have hmod : (a.toNat - 0x8000) % 16384 = a.toNat - 0xC000 := by
      have hge : 0xC000 ≤ a.toNat := by bv_omega
      omega
    rw [if_neg fun h => hlow h.2, if_pos ⟨by bv_omega, by bv_omega⟩, hmod]

theorem getflag_eq (P : U8) (flag : NesPFlags) : getflag P flag = P.getLsbD flag.bit := by
  cases flag <;> revert P <;> decide +kernel

theorem NesPFlags.getLsbD_mask (f g : NesPFlags) : f.mask.getLsbD g.bit = decide (f = g) := by
  cases f <;> cases g <;> rfl

/-- Setting keeps the other flags; clearing keeps only the flag that was to be
cleared. -/
theorem getflag_setflag (P : U8) (f g : NesPFlags) (clear : Bool) :
    getflag (setflag P f clear) g =
      if f = g then clear || getflag P g else clear && getflag P g := by
  cases clear <;> by_cases h : f = g <;>
    simp [setflag, getflag_eq, BitVec.getLsbD_or, BitVec.getLsbD_and, NesPFlags.getLsbD_mask, h]

@[simp] theorem getflag_setflag_self (P : U8) (f : NesPFlags) (clear : Bool) :
    getflag (setflag P f clear) f = (clear || getflag P f) := by
  rw [getflag_setflag, if_pos rfl]

theorem getflag_setflag_of_ne (P : U8) {f g : NesPFlags} (h : f ≠ g) (clear : Bool) :
    getflag (setflag P f clear) g = (clear && getflag P g) := by
  rw [getflag_setflag, if_neg h]

/-- A call on the bus. A read returns a byte and changes nothing. -/
inductive BusCall
  | write (addr : U16) (data : U8)
  | read (addr : U16) (readOnly : Bool)
  deriving DecidableEq, Repr

def BusCall.apply (s : Nes) : BusCall → Nes
  | .write addr data => nesCpuWrite s addr data
  | .read _ _ => s

def runCalls (s : Nes) (calls : List BusCall) : Nes := calls.foldl BusCall.apply s

theorem runCalls_nesLoadedCart (s : Nes) (calls : List BusCall) :
    (runCalls s calls).nesLoadedCart = s.nesLoadedCart := by
  induction calls generalizing s with
  | nil => rfl
  | cons call calls ih =>
      rw [runCalls, List.foldl_cons, ← runCalls, ih]
      cases call with
      | write b data => rw [BusCall.apply, nesCpuWrite_eq]
      | read b readOnly => rfl

def zeroMachine (cart : NesCartidge) : Nes where
  A := 0
  X := 0
  Y := 0
  P := 0
  SP := 0
  PC := 0
  nesTemp := 0
  nesFetched := 0
  nesAddrAbs := 0
  nesAddrRel := 0
  nesOpcode := 0
  nesCycles := 0
  nesCpuRam _ := 0
  nesLoadedCart := cart
  stackLog := []

end MetalNes.NesBus
