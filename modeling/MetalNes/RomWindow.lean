import MetalNes.NesCart

namespace MetalNes.RomWindow

open NesBus NesCart

/-- A mapper 0 cartridge of 16 or 32 KB, as the loader sets its fields. -/
structure NromCart (cart : NesCartidge) : Prop where
  mapper : cart.mapper = .zero
  banks : cart.prgBanks = 1 ∨ cart.prgBanks = 2
  prgSize : cart.prgSize.toNat = cart.prgBanks.toNat * 16384

theorem nesMapperZeroRead_more (cart : NesCartidge) (hbanks : ¬ cart.prgBanks ≤ 1) (a : U16) :
    nesMapperZeroRead cart a = 0 := if_neg hbanks

/-- For every history of bus calls and every address of the window: a ROM of 32 KB
reads as zero everywhere. -/
theorem window_iff (s : Nes) (hcart : NromCart s.nesLoadedCart) (calls : List BusCall) (a : U16)
    (ha : 0x8000 ≤ a) (readOnly : Bool) :
    nesCpuRead (runCalls s calls) a readOnly =
        s.nesLoadedCart.prgMem ((a.toNat - 0x8000) % s.nesLoadedCart.prgSize.toNat) ↔
      s.nesLoadedCart.prgBanks = 1 ∨ s.nesLoadedCart.prgMem (a.toNat - 0x8000) = 0 := by
  rw [nesCpuRead_rom _ ha, runCalls_nesLoadedCart, hcart.mapper, NesMapper.read, hcart.prgSize]
  rcases hcart.banks with hbanks | hbanks
  · rw [nesMapperZeroRead_one _ (by rw [hbanks]; decide) ha, hbanks]
    exact iff_of_true rfl (.inl rfl)
  · have hlt := a.isLt
    have hsize : (2 : U8).toNat * 16384 = 32768 := rfl
    have hmod : (a.toNat - 0x8000) % ((2 : U8).toNat * 16384) = a.toNat - 0x8000 :=
      Nat.mod_eq_of_lt (by omega)
    rw [nesMapperZeroRead_more _ (by rw [hbanks]; decide), hbanks, hmod]
    exact ⟨fun h => .inr h.symm, fun h => (h.resolve_left (by decide)).symm⟩

/-- A cartridge whose byte at offset i is the low byte of i + 1. -/
def countingCart (banks : U8) : NesCartidge where
  prgMem i := BitVec.ofNat 8 (i + 1)
  prgSize := BitVec.ofNat 32 (banks.toNat * 16384)
  chrMem _ := 0
  chrSize := 8192
  mapperId := 0
  prgBanks := banks
  chrBanks := 1
  mapper := .zero

theorem small_rom_mirrored :
    nesCpuRead (runCalls (zeroMachine (countingCart 1)) [.write 0xC001 0x77]) 0xC001 false =
      (countingCart 1).prgMem ((0xC001 - 0x8000) % 16384) :=
  (window_iff (zeroMachine (countingCart 1)) ⟨rfl, .inl rfl, rfl⟩ [.write 0xC001 0x77] 0xC001
    (by decide) false).mpr (.inl rfl)

theorem large_rom_reads_zero :
    NromCart (countingCart 2) ∧ nesCpuRead (zeroMachine (countingCart 2)) 0x8000 false ≠
      (countingCart 2).prgMem ((0x8000 - 0x8000) % (countingCart 2).prgSize.toNat) :=
  ⟨⟨rfl, .inr rfl, rfl⟩, by decide⟩

end MetalNes.RomWindow
