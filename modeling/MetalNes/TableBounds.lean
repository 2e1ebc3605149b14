import MetalNes.BusAccess
import MetalNes.NesCart
import Mathlib.Data.List.GetD

namespace MetalNes.TableBounds

open NesBus NesTable NesClock BusAccess NesCart

/-- An access to the instruction table, the RAM or the PRG memory, by its index. -/
inductive Access
  | table (index : Nat)
  | ram (index : Nat)
  | prg (index : Nat)
  deriving DecidableEq, Repr

/-- The number of entries init_nes_6502 allocates. -/
def instructionEntries : Nat := 0xFF

def ramBytes : Nat := 2048

def InBounds (cart : NesCartidge) : Access → Prop
  | .table index => index < instructionEntries
  | .ram index => index < ramBytes
  | .prg index => index < cart.prgSize.toNat

def mapperZeroAccesses (cart : NesCartidge) (addr : U16) : List Access :=
  if cart.prgBanks ≤ 1 then
    if 0x8000 ≤ addr ∧ addr ≤ 0xBFFF then [.prg (addr.toNat - 0x8000)]
    else if 0xC000 ≤ addr ∧ addr ≤ 0xFFFF then [.prg (addr.toNat - 0xC000)]
    else []
  else []

def mapperAccesses (cart : NesCartidge) (addr : U16) : List Access :=
  match cart.mapper with
  | .zero => mapperZeroAccesses cart addr

def ramAccesses (addr : U16) : List Access :=
  if addr ≤ 0x1FFF then [.ram (addr &&& 0x07FF).toNat] else []

/-- The PPU functions access none of the three. -/
def accesses (cart : NesCartidge) : BusUse → List Access
  | .lookup opcode => [.table opcode.toNat]
  | .write addr => ramAccesses addr
  | .read addr =>
      if addr ≤ 0x1FFF then ramAccesses addr
      else if 0x2000 ≤ addr ∧ addr ≤ 0x3FFF then []
      else mapperAccesses cart addr

theorem nesMapperZeroRead_accesses {cart cart' : NesCartidge} (hbanks : cart'.prgBanks = cart.prgBanks)
    (addr : U16) (hprg : ∀ i, .prg i ∈ mapperZeroAccesses cart addr → cart'.prgMem i = cart.prgMem i) :
    nesMapperZeroRead cart' addr = nesMapperZeroRead cart addr := by
  rw [nesMapperZeroRead, nesMapperZeroRead, hbanks]
  unfold mapperZeroAccesses at hprg
  by_cases hone : cart.prgBanks ≤ 1
  · rw [if_pos hone] at hprg ⊢
    rw [if_pos hone]
    by_cases hlow : 0x8000 ≤ addr ∧ addr ≤ 0xBFFF
    · rw [if_pos hlow] at hprg ⊢
      rw [if_pos hlow]
      exact hprg _ (List.mem_singleton_self _)
    · rw [if_neg hlow] at hprg ⊢
      rw [if_neg hlow]
      by_cases hhigh : 0xC000 ≤ addr ∧ addr ≤ 0xFFFF
      · rw [if_pos hhigh] at hprg ⊢
        rw [if_pos hhigh]
        exact hprg _ (List.mem_singleton_self _)
      · rw [if_neg hhigh, if_neg hhigh]
  · rw [if_neg hone, if_neg hone]

/-- A read depends on nothing but the cells it accesses. -/
theorem nesCpuRead_accesses {s t : Nes} (hmapper : t.nesLoadedCart.mapper = s.nesLoadedCart.mapper)
    (hbanks : t.nesLoadedCart.prgBanks = s.nesLoadedCart.prgBanks) (addr : U16)
    (hram : ∀ i : U16, .ram i.toNat ∈ accesses s.nesLoadedCart (.read addr) →
      t.nesCpuRam i = s.nesCpuRam i)
    (hprg : ∀ i, .prg i ∈ accesses s.nesLoadedCart (.read addr) →
      t.nesLoadedCart.prgMem i = s.nesLoadedCart.prgMem i) (readOnly : Bool) :
    nesCpuRead t addr readOnly = nesCpuRead s addr readOnly := by
  unfold nesCpuRead
  unfold accesses at hram hprg
  by_cases hlow : addr ≤ 0x1FFF
  · simp only [if_pos hlow, ramAccesses] at hram ⊢
    exact hram _ (List.mem_singleton_self _)
  · by_cases hppu : 0x2000 ≤ addr ∧ addr ≤ 0x3FFF
    · rw [if_neg hlow, if_neg hlow, if_pos hppu, if_pos hppu]
    · simp only [if_neg hlow, if_neg hppu] at hprg ⊢
      rw [hmapper]
      cases s.nesLoadedCart.mapper with
      | zero => exact nesMapperZeroRead_accesses hbanks addr hprg

def powerOn (s : Nes) : Nes := nesReset (initNes6502 s)

theorem powerOn_nesLoadedCart (s : Nes) : (powerOn s).nesLoadedCart = s.nesLoadedCart := by
  rw [powerOn, nesReset, initNes6502]

def runUses (s : Nes) (n : Nat) : List BusUse :=
  resetUses ++ (List.range n).flatMap fun i => clockUses (nesClock^[i] (powerOn s))

def runAccesses (s : Nes) (n : Nat) : List Access :=
  (runUses s n).flatMap (accesses s.nesLoadedCart)

/-- No instruction started within the first clocks has the last opcode. -/
def AvoidsLastOpcode (s : Nes) (n : Nat) : Prop :=
  ∀ i < n, (nesClock^[i] s).nesCycles = 0 →
    nesCpuRead (nesClock^[i] s) (nesClock^[i] s).PC false ≠ 0xFF

section Cart

variable {cart : NesCartidge}

theorem ramAccesses_inBounds (addr : U16) : ∀ a ∈ ramAccesses addr, InBounds cart a := by
  have hm : (0x07FF : U16).toNat = 2 ^ 11 - 1 := rfl
  rw [ramAccesses]
  split
  · simp only [List.forall_mem_singleton, InBounds, ramBytes]
    rw [BitVec.toNat_and, hm, Nat.and_two_pow_sub_one_eq_mod]
    omega
  · simp

theorem mapperZeroAccesses_inBounds (hsize : 16384 ≤ cart.prgSize.toNat) (addr : U16) :
    ∀ a ∈ mapperZeroAccesses cart addr, InBounds cart a := by
  have hlt := addr.isLt
  rw [mapperZeroAccesses]
  split
  · split
    · next hlow =>
      have hle := BitVec.le_def.mp hlow.2
      have hlit : (0xBFFF : U16).toNat = 0xBFFF := rfl
      rw [List.forall_mem_singleton, InBounds]
      omega
    · split
      · rw [List.forall_mem_singleton, InBounds]
        omega
      · simp
  · simp

theorem mapperAccesses_inBounds (hsize : 16384 ≤ cart.prgSize.toNat) (addr : U16) :
    ∀ a ∈ mapperAccesses cart addr, InBounds cart a := by
  rw [mapperAccesses]
  cases cart.mapper with
  | zero => exact mapperZeroAccesses_inBounds hsize addr

theorem lookup_inBounds_iff (opcode : U8) :
    InBounds cart (.table opcode.toNat) ↔ opcode ≠ 0xFF := by
  rw [InBounds, instructionEntries]
  bv_omega

theorem accesses_inBounds_iff (hsize : 16384 ≤ cart.prgSize.toNat) (u : BusUse) :
    (∀ a ∈ accesses cart u, InBounds cart a) ↔ u ≠ .lookup 0xFF := by
  cases u with
  | lookup opcode => rw [accesses, List.forall_mem_singleton, lookup_inBounds_iff, ne_eq, ne_eq, BusUse.lookup.injEq]
  | read addr =>
      refine iff_of_true ?_ (by simp)
      rw [accesses]
      split
      · exact ramAccesses_inBounds addr
      · split
        · simp
        · exact mapperAccesses_inBounds hsize addr
  | write addr => exact iff_of_true (ramAccesses_inBounds addr) (by simp)

end Cart

/-- The reset vector lies outside an empty PRG memory. -/
theorem empty_outOfBounds {cart : NesCartidge} (hbanks : cart.prgBanks = 0)
    (hsize : cart.prgSize.toNat = 0) : ∃ a ∈ accesses cart (.read 0xFFFC), ¬ InBounds cart a := by
  have haccess : accesses cart (.read 0xFFFC) = [.prg 0x3FFC] := by
    show mapperAccesses cart 0xFFFC = _
    rw [mapperAccesses]
    cases cart.mapper with
    | zero =>
        rw [mapperZeroAccesses, hbanks]
        rfl
  refine ⟨.prg 0x3FFC, ?_, ?_⟩
  · rw [haccess]
    exact List.mem_singleton_self _
  · rw [InBounds, hsize]
    exact Nat.not_lt_zero _

theorem clock_inBounds_iff {s : Nes} (hsize : 16384 ≤ s.nesLoadedCart.prgSize.toNat) :
    (∀ u ∈ clockUses s, ∀ a ∈ accesses s.nesLoadedCart u, InBounds s.nesLoadedCart a) ↔
      (s.nesCycles = 0 → nesCpuRead s s.PC false ≠ 0xFF) := by
  have huse : (∀ u ∈ clockUses s, ∀ a ∈ accesses s.nesLoadedCart u, InBounds s.nesLoadedCart a) ↔
      .lookup 0xFF ∉ clockUses s := by
    simp only [accesses_inBounds_iff hsize]
    exact ⟨fun h hmem => h _ hmem rfl, fun h u hu he => h (he ▸ hu)⟩
  rw [huse, lookup_clockUses, not_and]

theorem run_inBounds (s : Nes) (n : Nat) (hsize : 16384 ≤ s.nesLoadedCart.prgSize.toNat) :
    (∀ a ∈ runAccesses s n, InBounds s.nesLoadedCart a) ↔ AvoidsLastOpcode (powerOn s) n := by
  have hcart : ∀ i, (nesClock^[i] (powerOn s)).nesLoadedCart = s.nesLoadedCart :=
    fun i => (iterate_nesClock_nesLoadedCart (powerOn s) i).trans (powerOn_nesLoadedCart s)
  have hreset : ∀ u ∈ resetUses, ∀ a ∈ accesses s.nesLoadedCart u, InBounds s.nesLoadedCart a := by
    intro u hu
    refine (accesses_inBounds_iff hsize u).mpr ?_
    rintro rfl
    simp [resetUses] at hu
  have hclock : ∀ i, (∀ u ∈ clockUses (nesClock^[i] (powerOn s)), ∀ a ∈ accesses s.nesLoadedCart u,
      InBounds s.nesLoadedCart a) ↔ ((nesClock^[i] (powerOn s)).nesCycles = 0 →
        nesCpuRead (nesClock^[i] (powerOn s)) (nesClock^[i] (powerOn s)).PC false ≠ 0xFF) := by
    intro i
    have hstep := clock_inBounds_iff (s := nesClock^[i] (powerOn s)) (by rw [hcart i]; exact hsize)
    rwa [hcart i] at hstep
  simp only [runAccesses, runUses, List.mem_flatMap, List.mem_append, List.mem_range]
  constructor
  · intro h i hi
    exact (hclock i).mp fun u hu a ha => h a ⟨u, .inr ⟨i, hi, hu⟩, ha⟩
  · rintro h a ⟨u, hu | ⟨i, hi, hu⟩, ha⟩
    · exact hreset u hu a ha
    · exact (hclock i).mpr (h i hi) u hu a ha

/-- For every cartridge the loader accepts, whatever the registers and the RAM
hold at first. -/
theorem run_inBounds_iff {call : LoadCall} {l l' : Loader}
    (hload : nesLoadCart call l = .ok (ROM_OK, l')) :
    ∃ cart, l'.nesLoadedCart = some cart ∧ cart.mapper = some .zero ∧
      ∀ (s : Nes) (n : Nat), s.nesLoadedCart = cart.inserted .zero →
        ((∀ a ∈ runAccesses s n, InBounds s.nesLoadedCart a) ↔
          cart.prgBanks ≠ 0 ∧ AvoidsLastOpcode (powerOn s) n) := by
  obtain ⟨file, -, cart, hinstalled, hmapper, hcart⟩ := nesLoadCart_ok hload
  refine ⟨cart, hinstalled, hmapper, fun s n hs => ?_⟩
  have hprgSize : s.nesLoadedCart.prgSize.toNat = cart.prgBanks.toNat * 16384 := by
    rw [hs, ← hcart.prg, ← hcart.prgSize]
    rfl
  by_cases hbanks : cart.prgBanks = 0
  · refine iff_of_false (fun h => ?_) fun h => h.1 hbanks
    have hempty : s.nesLoadedCart.prgSize.toNat = 0 := by rw [hprgSize, hbanks]; rfl
    obtain ⟨a, ha, hout⟩ := empty_outOfBounds (by rw [hs]; exact hbanks) hempty
    refine hout (h a (List.mem_flatMap.mpr ⟨.read 0xFFFC, ?_, ha⟩))
    exact List.mem_append_left _ List.mem_cons_self
  · rw [and_iff_right hbanks]
    refine run_inBounds s n ?_
    rw [hprgSize]
    bv_omega

/-- A file with one PRG bank whose bytes are all the same. -/
def filledFile (b : U8) : CartFile :=
  ⟨[0x4E, 0x45, 0x53, 0x1A, 1, 0, 0, 0, 0, 0, 0, 0, 0, 0, 0, 0] ++ List.replicate 16384 b, 0⟩

def filledCall (b : U8) : LoadCall := ⟨some (filledFile b), fun _ => 0, fun _ => false, 0⟩

theorem filledFile_loads {b : U8} (hb : b ++ b ++ b ++ b ≠ Liballoc.LIBALLOC_MAGIC) (l : Loader) :
    ∃ l' cart, nesLoadCart (filledCall b) l = .ok (ROM_OK, l') ∧
      l'.nesLoadedCart = some cart ∧ cart.prgBanks = 1 ∧ cart.prg = List.replicate 16384 b := by
  have hstart : prgStart (filledFile b).contents = 16 := by
    show 16 + trainerSize 0 = 16
    decide
  have hprgLength : prgLength (filledFile b).contents = 16384 := by
    show (1 : U8).toNat * 16384 = 16384
    decide
  have hchrLength : chrLength (filledFile b).contents = 0 := by
    show (0 : U8).toNat * 8192 = 0
    decide
  have hlength : (filledFile b).contents.length = 16 + 16384 := by
    rw [filledFile, List.length_append, List.length_replicate]
    rfl
  have hsize : announcedSize (filledFile b).contents ≤ (filledFile b).contents.length := by
    rw [announcedSize, chrStart, hstart, hprgLength, hchrLength, hlength]
  have hmapperid : mapperidOf 0 0 = 0 := by decide
  have hchrStart : chrStart (filledFile b).contents = 16 + 16384 := by rw [chrStart, hstart, hprgLength]
  have htail : (filledFile b).contents.drop (16 + 16384 - 32) = List.replicate 32 b := by
    rw [filledFile, List.drop_append, List.drop_replicate]
    rfl
  have htag : tagMagic (filledCall b) (filledFile b).contents (chrStart (filledFile b).contents) =
      .ok (b ++ b ++ b ++ b) := by
    rw [hchrStart, tagMagic, if_neg (by decide), if_pos (by rw [hlength]; decide), load_of_drop (htail.trans rfl)]
  have hgranted : ∀ kind, (filledCall b).refused kind = false := fun _ => rfl
  obtain ⟨l', cart, hload, hinstalled, hcart, hprg⟩ :=
    nesLoadCart_accepts hgranted rfl rfl ⟨_, rfl⟩ (strncmp_empty rfl rfl) hsize hmapperid htag hb l
  refine ⟨l', cart, hload, hinstalled, hcart.prgBanks, hprg.trans ?_⟩
  rw [hstart, hprgLength]
  exact List.take_of_length_le List.length_replicate.le

variable {cart : LoadedCart} {b : U8} {s : Nes}

theorem nesCpuRead_filled (hbanks : cart.prgBanks = 1) (hprg : cart.prg = List.replicate 16384 b)
    (hs : s.nesLoadedCart = cart.inserted .zero) {a : U16} (ha : 0x8000 ≤ a) (readOnly : Bool) :
    nesCpuRead s a readOnly = b := by
  have hread : nesCpuRead s a readOnly = nesMapperZeroRead (cart.inserted .zero) a := by
    rw [nesCpuRead_rom s ha, hs]
    rfl
  have hone : (cart.inserted .zero).prgBanks ≤ 1 := by
    show cart.prgBanks ≤ 1
    rw [hbanks]
    decide
  have hlt : (a.toNat - 0x8000) % 16384 < 16384 := Nat.mod_lt _ (by decide)
  rw [hread, nesMapperZeroRead_one _ hone ha]
  show cart.prg.getD _ 0 = b
  rw [hprg, List.getD_replicate _ hlt]

theorem powerOn_waits (s : Nes) (n : Nat) (hn : n ≤ 8) :
    nesClock^[n] (powerOn s) = { powerOn s with nesCycles := 8 - BitVec.ofNat 8 n } := by
  have hcycles : (powerOn s).nesCycles = 8 := by rw [powerOn, nesReset]
  have hwait := iterate_nesClock_idle (powerOn s) n (by rw [hcycles]; exact hn)
  rwa [hcycles] at hwait

theorem filled_opcode (hbanks : cart.prgBanks = 1) (hprg : cart.prg = List.replicate 16384 b)
    (hb : 0x80 ≤ b) (hs : s.nesLoadedCart = cart.inserted .zero) :
    (nesClock^[8] (powerOn s)).nesCycles = 0 ∧
      nesCpuRead (nesClock^[8] (powerOn s)) (nesClock^[8] (powerOn s)).PC false = b := by
  have hinit : (initNes6502 s).nesLoadedCart = cart.inserted .zero := by rw [initNes6502, hs]
  have hpc : (powerOn s).PC = wordOf b b := by
    have hlo := nesCpuRead_filled hbanks hprg hinit (by decide : (0x8000 : U16) ≤ 0xFFFC) false
    have hhi := nesCpuRead_filled hbanks hprg hinit (by decide : (0x8000 : U16) ≤ 0xFFFD) false
    rw [powerOn, nesReset]
    exact congrArg₂ wordOf hlo hhi
  have hpc' : (nesClock^[8] (powerOn s)).PC = wordOf b b := by
    rw [powerOn_waits s 8 le_rfl, ← hpc]
  have hcart : (nesClock^[8] (powerOn s)).nesLoadedCart = cart.inserted .zero := by
    rw [iterate_nesClock_nesLoadedCart, powerOn_nesLoadedCart, hs]
  have hrom : (0x8000 : U16) ≤ wordOf b b := by
    have hle := BitVec.le_def.mp hb
    have hlit : (0x80 : U8).toNat = 0x80 := rfl
    have hlit' : (0x8000 : U16).toNat = 0x8000 := rfl
    rw [BitVec.le_def, toNat_wordOf]
    omega
  constructor
  · rw [powerOn_waits s 8 le_rfl]
    show (8 : U8) - BitVec.ofNat 8 8 = 0
    decide
  · rw [hpc']
    exact nesCpuRead_filled hbanks hprg hcart hrom false

theorem nop_rom_inBounds : ∃ l' cart, nesLoadCart (filledCall 0xEA) ⟨⟨[], []⟩, none, []⟩ = .ok (ROM_OK, l') ∧
    l'.nesLoadedCart = some cart ∧
    ∀ a ∈ runAccesses (zeroMachine (cart.inserted .zero)) 9, InBounds (cart.inserted .zero) a := by
  obtain ⟨l', cart, hload, hinstalled, hbanks, hprg⟩ := filledFile_loads (b := 0xEA) (by decide) ⟨⟨[], []⟩, none, []⟩
  obtain ⟨cart', hinstalled', -, hrun⟩ := run_inBounds_iff hload
  cases hinstalled.symm.trans hinstalled'
  refine ⟨l', cart, hload, hinstalled, (hrun (zeroMachine (cart.inserted .zero)) 9 rfl).mpr ⟨?_, ?_⟩⟩
  · rw [hbanks]
    decide
  · intro i hi hstart
    obtain hlt | rfl := Nat.lt_succ_iff_lt_or_eq.mp hi
    · refine absurd hstart ?_
      rw [powerOn_waits _ i hlt.le]
      show (8 : U8) - BitVec.ofNat 8 i ≠ 0
      bv_omega
    · rw [(filled_opcode hbanks hprg (by decide) rfl).2]
      decide

/-- An erased ROM is executed as the last opcode, which has no entry. -/
theorem erased_rom_outOfBounds :
    ∃ l' cart, nesLoadCart (filledCall 0xFF) ⟨⟨[], []⟩, none, []⟩ = .ok (ROM_OK, l') ∧
      l'.nesLoadedCart = some cart ∧
      ∃ a ∈ runAccesses (zeroMachine (cart.inserted .zero)) 9, ¬ InBounds (cart.inserted .zero) a := by
  obtain ⟨l', cart, hload, hinstalled, hbanks, hprg⟩ := filledFile_loads (b := 0xFF) (by decide) ⟨⟨[], []⟩, none, []⟩
  refine ⟨l', cart, hload, hinstalled, .table 0xFF, ?_, Nat.lt_irrefl _⟩
  have hlookup := (lookup_clockUses _ _).mpr
    (filled_opcode (s := zeroMachine (cart.inserted .zero)) hbanks hprg (by decide) rfl)
  refine List.mem_flatMap.mpr ⟨.lookup 0xFF, List.mem_append_right _ ?_, List.mem_singleton_self _⟩
  exact List.mem_flatMap.mpr ⟨8, List.mem_range.mpr (by decide), hlookup⟩

end MetalNes.TableBounds
