import MetalNes.NesCart

namespace MetalNes.CartSafety

open Blocks NesCart
open Liballoc (LIBALLOC_MAGIC)

variable {call : LoadCall} {s : Loader} {file : CartFile}

/-- Whether every section that is copied at all lies in the file. -/
def SectionsFit (contents : List U8) : Prop :=
  (prgLength contents = 0 ∨ chrStart contents ≤ contents.length) ∧
    (chrLength contents = 0 ∨ announcedSize contents ≤ contents.length)

section Overrun

variable (hgranted : ∀ kind, call.refused kind = false) {contents : List U8}
  (hheader : 16 ≤ contents.length)

include hgranted hheader

theorem buildCart_returns_iff (s : Loader) :
    (∃ r, buildCart call contents s = .ok r) ↔ SectionsFit contents := by
  have hbyte : ∀ i < 16, byteAt contents i = .ok (contents.getD i 0) :=
    fun i hi => byteAt_of_lt (hi.trans_le hheader)
  simp only [buildCart, hbyte 4 (by decide), hbyte 5 (by decide), hbyte 6 (by decide),
    hbyte 7 (by decide), malloc_granted hgranted, memcpy_some, bind, Except.bind]
  rw [SectionsFit, announcedSize, chrStart, prgStart, prgLength, chrLength]
  by_cases hprg : (contents.getD 4 0).toNat * 16384 = 0 ∨
      16 + trainerSize (contents.getD 6 0) + (contents.getD 4 0).toNat * 16384 ≤ contents.length
  · by_cases hchr : (contents.getD 5 0).toNat * 8192 = 0 ∨
        16 + trainerSize (contents.getD 6 0) + (contents.getD 4 0).toNat * 16384 +
          (contents.getD 5 0).toNat * 8192 ≤ contents.length
    · simp only [if_pos hprg, if_pos hchr]
      refine iff_of_true ?_ ⟨hprg, hchr⟩
      obtain ⟨mapper, s', hmapper⟩ := nesGetMapper_granted hgranted _ _
      rw [hmapper]
      exact ⟨_, rfl⟩
    · simp only [if_pos hprg, if_neg hchr]
      exact iff_of_false (by rintro ⟨r, ⟨⟩⟩) fun h => hchr h.2
  · simp only [if_neg hprg]
    exact iff_of_false (by rintro ⟨r, ⟨⟩⟩) fun h => hprg h.1

omit hheader in
/-- A file that is too short for its sections is not rejected: it is read beyond its
end. Nor is one in which free finds its magic number. -/
theorem nesLoadCart_returns_iff (hopen : call.fopen = some file) (hstat : file.statres = 0)
    (hmagic : magic <+: file.contents) (hheader : 16 ≤ file.contents.length)
    (hunused : strncmp file.contents 11 call.addressZero 4 = .ok true) (s : Loader) :
    (∃ r, nesLoadCart call s = .ok r) ↔ SectionsFit file.contents ∧
      ∃ word, tagMagic call file.contents (chrStart file.contents) = .ok word ∧ word ≠ LIBALLOC_MAGIC := by
  obtain ⟨cartbuffer, t, hload⟩ := nesLoadCart_reads hgranted hopen hstat hmagic hunused s
  rw [hload, ← buildCart_returns_iff hgranted hheader t]
  constructor
  · rintro ⟨r, hr⟩
    obtain ⟨⟨cart, i, u⟩, hbuild, hinstall⟩ := ok_of_bind hr
    obtain ⟨rfl, -⟩ := buildCart_ok hbuild
    exact ⟨⟨_, hbuild⟩, (installCart_ok hinstall).1⟩
  · rintro ⟨⟨⟨cart, i, u⟩, hbuild⟩, word, htag, hne⟩
    obtain ⟨rfl, -⟩ := buildCart_ok hbuild
    rw [loadInes, hbuild]
    exact ⟨_, (installCart_of_tag htag).trans (if_neg hne)⟩

end Overrun

end MetalNes.CartSafety
