import MetalNes.InstructionRules
import MetalNes.RamMirror

namespace MetalNes.CopyLoop

open Timed NesBus NesTable NesClock RamMirror InstructionSet InstructionRefinement InstructionRules

/-- LDX #n, and at the loop LDA src,X, STA dst,X, DEX and BNE back to it. -/
def copyCode (n : U8) (src dst : U16) : List U8 :=
  [0xA2, n, 0xBD, loByte src, hiByte src, 0x9D, loByte dst, hiByte dst, 0xCA, 0xD0, 0xF7]

structure InRom (cart : NesCartidge) (p : U16) (code : List U8) : Prop where
  low : 0x8000 ≤ p.toNat
  high : p.toNat + code.length ≤ 0x10000
  bytes : ∀ i b, code[i]? = some b → cart.mapper.read cart (p + BitVec.ofNat 16 i) = b

section Passes

variable (bus : Bus (U16 → U8)) (src dst : U16)

def copyPass (index : U8) (st : U8 × (U16 → U8)) : U8 × (U16 → U8) :=
  let a := bus.read st.2 (src + index.setWidth 16)
  (a, bus.write st.2 (dst + index.setWidth 16) a)

def copyPasses : Nat → U8 × (U16 → U8) → U8 × (U16 → U8)
  | 0, st => st
  | k + 1, st => copyPasses k (copyPass bus src dst (BitVec.ofNat 8 (k + 1)) st)

end Passes

def passes (n : U8) : Nat := if n = 0 then 256 else n.toNat

def passClocks (p src : U16) (k : Nat) : Nat :=
  4 + crossing src (BitVec.ofNat 8 k) + 5 + 2 +
    if k = 1 then 2 else 3 + if hiByte (p + 2) ≠ hiByte (p + 11) then 1 else 0

section Loop

variable {cart : NesCartidge} {p : U16} {n : U8} {src dst : U16}

theorem InRom.read {code : List U8} (h : InRom cart p code) {i : Nat} {b : U8} (hb : code[i]? = some b) {a : U16}
    (ha : a = p + BitVec.ofNat 16 i) (mem : U16 → U8) : (cartBus cart).read mem a = b := by
  have hi : i < code.length := (List.getElem?_eq_some_iff.mp hb).1
  have hlow := h.low
  have hhigh := h.high
  have hplace : 0x8000 ≤ a.toNat := by
    rw [ha, BitVec.toNat_add, BitVec.toNat_ofNat]
    omega
  have hram : ¬ a ≤ 0x1FFF := by bv_omega
  have hppu : ¬ a ≤ 0x3FFF := by bv_omega
  rw [cartBus]
  dsimp only
  rw [if_neg hram, if_neg hppu, ha]
  exact h.bytes i b hb

theorem passes_pos (n : U8) : 0 < passes n ∧ passes n ≤ 256 ∧ BitVec.ofNat 8 (passes n) = n := by
  have hn := n.isLt
  rw [passes]
  split
  · next hzero => exact ⟨by decide, le_rfl, hzero.symm⟩
  · next hne => exact ⟨Nat.pos_of_ne_zero fun h => hne (BitVec.eq_of_toNat_eq h), hn.le, by simp⟩

/-- So many passes are left. The zero flag is a trap only where the count is not small. -/
def Left (cart : NesCartidge) (p src dst : U16) (Y SP : U8) (last : U8 × (U16 → U8)) (k : Nat) (s : Nes) : Prop :=
  ∃ A mem zero, Stands cart ⟨A, BitVec.ofNat 8 k, Y, SP, if k = 0 then p + 11 else p + 2, mem⟩ zero s ∧
    copyPasses (cartBus cart) src dst k (A, mem) = last ∧ (zero = true → k ≤ 128)

structure Fetches (cart : NesCartidge) (p : U16) (n : U8) (src dst : U16) (mem : U16 → U8) : Prop where
  ldx : (cartBus cart).read mem p = 0xA2
  count : (cartBus cart).read mem (p + 1) = n
  lda : (cartBus cart).read mem (p + 2) = 0xBD
  src : wordOf ((cartBus cart).read mem (p + 2 + 1)) ((cartBus cart).read mem (p + 2 + 2)) = src
  sta : (cartBus cart).read mem (p + 2 + 3) = 0x9D
  dst : wordOf ((cartBus cart).read mem (p + 2 + 3 + 1)) ((cartBus cart).read mem (p + 2 + 3 + 2)) = dst
  dex : (cartBus cart).read mem (p + 2 + 3 + 3) = 0xCA
  bne : (cartBus cart).read mem (p + 2 + 3 + 3 + 1) = 0xD0
  offset : (cartBus cart).read mem (p + 2 + 3 + 3 + 1 + 1) = 0xF7

theorem InRom.fetches (h : InRom cart p (copyCode n src dst)) (mem : U16 → U8) : Fetches cart p n src dst mem where
  ldx := h.read (i := 0) rfl (BitVec.add_zero p).symm mem
  count := h.read (i := 1) rfl rfl mem
  lda := h.read (i := 2) rfl rfl mem
  src := by
    rw [h.read (i := 3) rfl (by bv_omega) mem, h.read (i := 4) rfl (by bv_omega) mem, wordOf_bytes]
  sta := h.read (i := 5) rfl (by bv_omega) mem
  dst := by
    rw [h.read (i := 6) rfl (by bv_omega) mem, h.read (i := 7) rfl (by bv_omega) mem, wordOf_bytes]
  dex := h.read (i := 8) rfl (by bv_omega) mem
  bne := h.read (i := 9) rfl (by bv_omega) mem
  offset := h.read (i := 10) rfl (by bv_omega) mem

theorem back (p : U16) : p + 2 + 3 + 3 + 1 + 2 + (0xF7 : U8).signExtend 16 = p + 2 := by
  have hoffset : (0xF7 : U8).signExtend 16 = 0xFFF7 := by decide
  rw [hoffset]
  bv_omega

theorem behind (p : U16) : p + 2 + 3 + 3 + 1 + 2 = p + 11 := by bv_omega

/-- The zero flag that DEX leaves is right, since the trap is out of reach. -/
theorem zero_counted {zero sign : Bool} {k : Nat} (hk : k < 256) (hzero : zero = true → k + 1 ≤ 128) :
    (BitVec.ofNat 8 k == 0x0 || (zero && sign) && (BitVec.ofNat 8 k).getLsbD 7) = decide (k = 0) := by
  have hbit : zero = true → (BitVec.ofNat 8 k).getLsbD 7 = false := by
    intro h
    rw [BitVec.getLsbD, BitVec.toNat_ofNat, Nat.mod_eq_of_lt hk]
    exact Nat.testBit_lt_two_pow (hzero h)
  have hindex : (BitVec.ofNat 8 k == 0x0) = decide (k = 0) := by
    rw [Bool.eq_iff_iff, beq_iff_eq, decide_eq_true_iff]
    constructor
    · intro h
      bv_omega
    · rintro rfl
      rfl
  cases zero with
  | false => rw [hindex, Bool.false_and, Bool.false_and, Bool.or_false]
  | true => rw [hindex, hbit rfl, Bool.and_false, Bool.or_false]

theorem takes_pass (hrom : InRom cart p (copyCode n src dst)) (Y SP : U8) (last : U8 × (U16 → U8)) {k : Nat}
    (hk : k < 256) : Takes nesClock (Left cart p src dst Y SP last (k + 1)) (passClocks p src (k + 1))
      (Left cart p src dst Y SP last k) := by
  rintro s ⟨A, mem, zero, hs, hlast, hzero⟩
  have hcode := hrom.fetches
  have hindex : BitVec.ofNat 8 (k + 1) - 1 = BitVec.ofNat 8 k := by bv_omega
  rw [if_neg (Nat.succ_ne_zero k)] at hs
  have hpass := (takes_LDA (hcode mem).lda (hcode mem).src rfl).trans
    ((takes_STA (hcode mem).sta (hcode mem).dst).trans ((takes_DEX (hcode _).dex).trans
      (takes_BNE (hcode _).bne (hcode _).offset (back p)))) s hs
  rw [hindex, zero_counted hk hzero, behind] at hpass
  have hclocks : 4 + crossing src (BitVec.ofNat 8 (k + 1)) + (5 + (2 + if decide (k = 0) = true then 2 else
      3 + if hiByte (p + 2) ≠ hiByte (p + 11) then 1 else 0)) = passClocks p src (k + 1) := by
    simp only [passClocks, decide_eq_true_eq, Nat.add_eq_right, Nat.add_assoc]
  rw [hclocks] at hpass
  refine ⟨_, _, decide (k = 0), ?_, hlast, ?_⟩
  · simp only [decide_eq_true_eq] at hpass
    exact hpass
  · intro h
    rw [of_decide_eq_true h]
    exact Nat.zero_le _

def copyClocks (p : U16) (n : U8) (src : U16) : Nat := 2 + total (passClocks p src) (passes n)

/-- The loop as a whole. Where the count has its sign bit, LDX leaves the zero flag as it was. -/
theorem takes_loop (hrom : InRom cart p (copyCode n src dst)) {A X Y SP : U8} {mem : U16 → U8} {zero : Bool}
    (hzero : zero = true → n ≤ 128) :
    Takes nesClock (Stands cart ⟨A, X, Y, SP, p, mem⟩ zero) (copyClocks p n src)
      (Left cart p src dst Y SP (copyPasses (cartBus cart) src dst (passes n) (A, mem)) 0) := by
  obtain ⟨hpos, hle, hcount⟩ := passes_pos n
  have hstart : Takes nesClock (Stands cart ⟨A, X, Y, SP, p, mem⟩ zero) 2
      (Stands cart ⟨A, n, Y, SP, p + 2, mem⟩ (zero && n.getLsbD 7)) :=
    takes_LDX (hrom.fetches mem).ldx (hrom.fetches mem).count
  refine (hstart.consequence (fun _ h => h) fun s hs => ?_).trans
    (Takes.countdown fun k hk => takes_pass hrom Y SP _ (by omega))
  refine ⟨A, mem, zero && n.getLsbD 7, ?_, rfl, ?_⟩
  · rw [hcount, if_neg hpos.ne']
    exact hs
  · intro h
    obtain ⟨hset, hsign⟩ := Bool.and_eq_true_iff.mp h
    have hsmall := hzero hset
    rw [passes]
    split
    · next hn =>
      rw [hn] at hsign
      cases hsign
    · exact hsmall

end Loop

section Blocks

variable {cart : NesCartidge} {src dst : U16}

def indexed (base : U16) (k : Nat) : U16 := base + (BitVec.ofNat 8 k).setWidth 16

theorem not_mirrors_index {i j : Nat} (hi : i < j) (hj : j ≤ i + 255) : ¬ Mirrors (indexed dst i) (indexed dst j) := by
  rintro ⟨-, hmod⟩
  rw [indexed, indexed, BitVec.toNat_add, BitVec.toNat_add, BitVec.toNat_setWidth, BitVec.toNat_setWidth,
    BitVec.toNat_ofNat, BitVec.toNat_ofNat] at hmod
  omega

theorem read_ramWrite {mem : U16 → U8} {a b : U16} {v : U8} (h : ¬ Mirrors b a) :
    (cartBus cart).read (ramWrite mem b v) a = (cartBus cart).read mem a := by
  rw [cartBus]
  dsimp only
  by_cases ha : a ≤ 0x1FFF
  · have hcell : a &&& 0x07FF ≠ b &&& 0x07FF := fun he => h ⟨ha, (cell_eq_iff b a).mp he⟩
    rw [if_pos ha, if_pos ha, ramWrite]
    split
    · exact Function.update_of_ne hcell _ _
    · rfl
  · rw [if_neg ha, if_neg ha]

theorem read_ramWrite_self {mem : U16 → U8} {a : U16} {v : U8} (ha : a ≤ 0x1FFF) :
    (cartBus cart).read (ramWrite mem a v) a = v := by
  rw [cartBus]
  dsimp only
  rw [if_pos ha, ramWrite, if_pos ha, Function.update_self]

theorem copyPasses_frame {k : Nat} {st : U8 × (U16 → U8)} {a : U16}
    (h : ∀ j, 0 < j → j ≤ k → ¬ Mirrors (indexed dst j) a) :
    (cartBus cart).read (copyPasses (cartBus cart) src dst k st).2 a = (cartBus cart).read st.2 a := by
  induction k generalizing st with
  | zero => rfl
  | succ k ih =>
      rw [copyPasses, ih fun j hj hk => h j hj (Nat.le_succ_of_le hk)]
      exact read_ramWrite (h (k + 1) (Nat.succ_pos k) le_rfl)

/-- Where the blocks are apart, each pass moves a byte that no earlier one has changed. -/
theorem copyPasses_bytes {k : Nat} (hk : k ≤ 256) (hram : ∀ j, 0 < j → j ≤ k → indexed dst j ≤ 0x1FFF)
    (hapart : ∀ i j, 0 < i → i ≤ k → 0 < j → j ≤ k → ¬ Mirrors (indexed dst j) (indexed src i))
    {st : U8 × (U16 → U8)} {j : Nat} (hj : 0 < j) (hjk : j ≤ k) :
    (cartBus cart).read (copyPasses (cartBus cart) src dst k st).2 (indexed dst j) =
      (cartBus cart).read st.2 (indexed src j) := by
  induction k generalizing st with
  | zero => omega
  | succ k ih =>
      rw [copyPasses]
      rcases Nat.lt_or_ge k j with hlast | hbefore
      · obtain rfl : j = k + 1 := by omega
        rw [copyPasses_frame fun i hi hik => not_mirrors_index (Nat.lt_succ_of_le hik) (by omega)]
        exact read_ramWrite_self (hram (k + 1) hj le_rfl)
      · rw [ih (by omega) (fun i hi hik => hram i hi (by omega))
          (fun i i' hi hik hi' hik' => hapart i i' hi (by omega) hi' (by omega)) hbefore]
        exact read_ramWrite (hapart j (k + 1) hj hjk (Nat.succ_pos k) le_rfl)

end Blocks

/-- The loop is over, and the bytes have been copied. Nothing else is changed but A and X. -/
structure Copied (n : U8) (src dst : U16) (s t : Nes) : Prop where
  complete : nesInsComplete t = true
  PC : t.PC = s.PC + 11
  X : t.X = 0
  Y : t.Y = s.Y
  SP : t.SP = s.SP
  cart : t.nesLoadedCart = s.nesLoadedCart
  bytes : ∀ k, 0 < k → k ≤ passes n → nesCpuRead t (indexed dst k) false = nesCpuRead s (indexed src k) false
  frame : ∀ a, (∀ k, 0 < k → k ≤ passes n → ¬ Mirrors (indexed dst k) a) → nesCpuRead t a false = nesCpuRead s a false

/-- For every cartridge with the loop anywhere in it, every count, every state in front of the
loop, and all blocks that are apart, the target in RAM: so many clocks copy the block. A count
above 128 needs a clear zero flag. -/
theorem copyLoop_copies {s : Nes} (h : s.nesCycles = 0) {n : U8} {src dst : U16}
    (hrom : InRom s.nesLoadedCart s.PC (copyCode n src dst)) (hzero : getflag s.P .Z = true → n ≤ 128)
    (hram : ∀ k, 0 < k → k ≤ passes n → indexed dst k ≤ 0x1FFF)
    (hapart : ∀ i j, 0 < i → i ≤ passes n → 0 < j → j ≤ passes n → ¬ Mirrors (indexed dst j) (indexed src i)) :
    Copied n src dst s (nesClock^[copyClocks s.PC n src] s) := by
  obtain ⟨A, mem, zero, hs, hlast, -⟩ := takes_loop hrom hzero s ⟨h, rfl, rfl, rfl⟩
  obtain ⟨hstart, hcart, hview, -⟩ := hs
  obtain ⟨-, hX, hY, hSP, hPC, hmem⟩ := Cpu.mk.inj hview
  have hafter : ∀ a, nesCpuRead (nesClock^[copyClocks s.PC n src] s) a false = (cartBus s.nesLoadedCart).read
      (copyPasses (cartBus s.nesLoadedCart) src dst (passes n) (s.A, s.nesCpuRam)).2 a := by
    intro a
    rw [← read_view, hcart, hmem, ← hlast]
    rfl
  refine ⟨beq_iff_eq.mpr hstart, hPC, hX, hY, hSP, hcart, fun k hk hle => ?_, fun a ha => ?_⟩
  · rw [hafter, copyPasses_bytes (passes_pos n).2.1 hram hapart hk hle, read_view]
  · rw [hafter, copyPasses_frame ha, read_view]

def romOf (code : List U8) : NesCartidge := ⟨fun i => code.getD i 0, 16384, fun _ => 0, 8192, 0, 1, 1, .zero⟩

theorem romOf_inRom {code : List U8} (h : code.length ≤ 16384) : InRom (romOf code) 0x8000 code where
  low := le_rfl
  high := by
    change 0x8000 + code.length ≤ 0x10000
    omega
  bytes i b hb := by
    have hi : i < code.length := (List.getElem?_eq_some_iff.mp hb).1
    have hplace : ((0x8000 : U16) + BitVec.ofNat 16 i).toNat = 0x8000 + i := by
      rw [BitVec.toNat_add, BitVec.toNat_ofNat]
      change (0x8000 + i % 2 ^ 16) % 2 ^ 16 = 0x8000 + i
      omega
    have hbank : 0x8000 ≤ (0x8000 : U16) + BitVec.ofNat 16 i ∧ (0x8000 : U16) + BitVec.ofNat 16 i ≤ 0xBFFF := by
      rw [BitVec.le_def, BitVec.le_def, hplace]
      exact ⟨Nat.le_add_right _ _, by change 0x8000 + i ≤ 0xBFFF; omega⟩
    have hbanks : (romOf code).prgBanks ≤ 1 := (by decide : (1 : U8) ≤ 1)
    change nesMapperZeroRead (romOf code) _ = b
    rw [nesMapperZeroRead, if_pos hbanks, if_pos hbank, hplace, Nat.add_sub_cancel_left]
    change code.getD i 0 = b
    rw [List.getD_eq_getElem?_getD, hb, Option.getD_some]

def copier : Nes := { zeroMachine (romOf (copyCode 3 0x8007 0x000F)) with PC := 0x8000 }

/-- Three bytes of the code itself go to $10. -/
theorem copier_copies : Copied 3 0x8007 0x000F copier (nesClock^[copyClocks 0x8000 3 0x8007] copier) := by
  have hsrc : ∀ i ≤ 3, ¬ indexed 0x8007 i ≤ 0x1FFF := by decide
  have hdst : ∀ k ≤ 3, indexed 0x000F k ≤ 0x1FFF := by decide
  refine copyLoop_copies (s := copier) rfl (romOf_inRom (by decide)) (fun h => ?_) (fun k _ hk => hdst k hk) ?_
  · cases h
  · exact fun i j _ hi _ _ hmirrors => hsrc i hi hmirrors.1

end MetalNes.CopyLoop
