import MetalNes.NesCart

namespace MetalNes.CartLayout

open Blocks ByteWords NesBus NesCart
open Liballoc (LIBALLOC_MAGIC)

/-- The contents of an iNES file: sections of the sizes that its header announces. -/
structure Ines where
  prgRomChunks : U8
  chrRomChunks : U8
  mapper1 : U8
  mapper2 : U8
  prgRamSize : U8
  tvSystem1 : U8
  tvSystem2 : U8
  trainer : List U8
  prg : List U8
  chr : List U8
  trainer_length : trainer.length = trainerSize mapper1
  prg_length : prg.length = prgRomChunks.toNat * 16384
  chr_length : chr.length = chrRomChunks.toNat * 8192

namespace Ines

variable (image : Ines)

def header : List U8 :=
  [0x4E, 0x45, 0x53, 0x1A, image.prgRomChunks, image.chrRomChunks, image.mapper1, image.mapper2,
    image.prgRamSize, image.tvSystem1, image.tvSystem2, 0, 0, 0, 0, 0]

def bytes : List U8 := image.header ++ image.trainer ++ image.prg ++ image.chr

def mapperNumber : U8 := mapperidOf image.mapper1 image.mapper2

end Ines

/-- The cartridge that is installed holds the contents of the image. -/
structure Holds (image : Ines) (cart : LoadedCart) : Prop where
  prgMem : cart.prg = image.prg
  chrMem : cart.chr = image.chr
  prgSize : cart.prgSize.toNat = image.prg.length
  chrSize : cart.chrSize.toNat = image.chr.length
  prgBanks : cart.prgBanks = image.prgRomChunks
  chrBanks : cart.chrBanks = image.chrRomChunks
  mapperId : cart.mapperId = image.mapperNumber
  mapper : cart.mapper ≠ none

section Load

variable (image : Ines) (hprg : image.prgRomChunks ≠ 0) (hmapper : image.mapperNumber = 0) (call : LoadCall)
  (hfile : call.fopen = some ⟨image.bytes, 0⟩) (hgranted : ∀ kind, call.refused kind = false)
  (hzero : call.addressZero 0 = 0) (s : Loader)

include hprg hmapper hfile hgranted hzero

end Load

end MetalNes.CartLayout
