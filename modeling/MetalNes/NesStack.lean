import MetalNes.NesClock
import MetalNes.RingStack

namespace MetalNes.NesStack

open NesBus NesOperations

/-- The bytes on top of the emulated stack, the last one pushed first. -/
def Stacked (s : Nes) (bytes : List U8) : Prop :=
  RingStack.Holds (stackCell s.nesCpuRam) s.SP bytes

theorem Stacked.congr {s t : Nes} {bytes : List U8} (h : Stacked s bytes)
    (hram : t.nesCpuRam = s.nesCpuRam) (hsp : t.SP = s.SP) : Stacked t bytes := by
  rw [Stacked, hram, hsp]
  exact h

theorem Stacked.push {s : Nes} {bytes : List U8} (h : Stacked s bytes)
    (hroom : bytes.length < 256) (data : U8) : Stacked (nesPush s data) (data :: bytes) := by
  rw [Stacked, nesPush_eq, stackCell_ramWrite]
  exact RingStack.Holds.push h hroom data

theorem Stacked.pull {s : Nes} {data : U8} {bytes : List U8} (h : Stacked s (data :: bytes)) :
    (nesPull s).2 = data ∧ Stacked (nesPull s).1 bytes := by
  have hread : (nesPull s).2 = stackCell s.nesCpuRam (s.SP + 1) :=
    nesCpuRead_stackAddr s (s.SP + 1)
  exact ⟨hread.trans h.1, h.2⟩

def pushWord (s : Nes) (word : U16) : Nes := nesPush (nesPush s (hiByte word)) (loByte word)

theorem Stacked.pushWord {s : Nes} {bytes : List U8} (h : Stacked s bytes)
    (hroom : bytes.length + 2 ≤ 256) (word : U16) :
    Stacked (pushWord s word) (loByte word :: hiByte word :: bytes) :=
  (h.push (by omega) (hiByte word)).push (by simp only [List.length_cons]; omega) (loByte word)

def pullWord (s : Nes) : Nes × U16 :=
  let lo := nesPull s
  let hi := nesPull lo.1
  (hi.1, wordOf lo.2 hi.2)

theorem Stacked.pullWord {s : Nes} {bytes : List U8} {word : U16}
    (h : Stacked s (loByte word :: hiByte word :: bytes)) :
    (pullWord s).2 = word ∧ Stacked (pullWord s).1 bytes := by
  obtain ⟨hlo, hrest⟩ := h.pull
  obtain ⟨hhi, hrest⟩ := hrest.pull
  have hword : (NesStack.pullWord s).2 = wordOf (nesPull s).2 (nesPull (nesPull s).1).2 := rfl
  exact ⟨by rw [hword, hlo, hhi, wordOf_bytes], hrest⟩

section Pulls

variable (s : Nes)

theorem nesPLA_SP : (nesPLA s).1.SP = s.SP + 1 := rfl

theorem nesPLA_nesCpuRam : (nesPLA s).1.nesCpuRam = s.nesCpuRam := rfl

theorem nesPLP_SP : (nesPLP s).1.SP = s.SP + 1 := rfl

theorem nesPLP_nesCpuRam : (nesPLP s).1.nesCpuRam = s.nesCpuRam := rfl

theorem nesRTS_SP : (nesRTS s).1.SP = s.SP + 1 + 1 := rfl

theorem nesRTS_nesCpuRam : (nesRTS s).1.nesCpuRam = s.nesCpuRam := rfl

end Pulls

theorem nesJSR_eq (s : Nes) :
    (nesJSR s).1 = { pushWord { s with PC := s.PC - 1 } (s.PC - 1) with PC := s.nesAddrAbs } := by
  simp only [nesJSR, pushWord, nesPush_eq]

theorem nesRTI_eq (s : Nes) :
    (nesRTI s).1 =
      let pulled := (nesPull s).1
      let P := setflag (setflag (nesPull s).2 .B true) .U true
      { (pullWord { pulled with P }).1 with PC := (pullWord { pulled with P }).2 } := rfl

end MetalNes.NesStack
