import MetalNes.CartLifetime

namespace MetalNes.CartResources

open Blocks NesCart
open CartLifetime (start after after_eq)

/-- Since the old cartridge was freed, the file has been closed once, and the pointer that
malloc returned for a read buffer has been passed to free once. -/
structure ReturnsResources (s s' : Loader) : Prop where
  closed : s'.actions.count .fclose = s.actions.count .fclose + 1
  freed : ∀ b, s.heap.blocks.length ≤ b → s'.heap.blocks[b]? = some .cartbuffer →
    s'.heap.freed.count (base b) = (freeLoaded s).heap.freed.count (base b) + 1

section Leaves

variable {call : LoadCall} {contents : List U8} {s s' : Loader}

theorem malloc_leaves {refused : Kind → Bool} {kind : Kind} {b : Option Nat}
    (h : s.malloc refused kind = (b, s')) :
    s.heap.Leaves s'.heap ∧ ∀ c ∈ b, c = s.heap.blocks.length := by
  cases h
  exact ⟨s.heap.malloc_leaves _ _, fun c hc => (Heap.malloc_some hc).2.1⟩

theorem nesGetMapper_leaves {mapperid : U8} {mapper : Option NesBus.NesMapper}
    (h : nesGetMapper call.refused mapperid s = .ok (mapper, s')) : s.heap.Leaves s'.heap := by
  rcases hm : s.malloc call.refused .mapper with ⟨b, t⟩
  obtain ⟨hleaves, hnew⟩ := malloc_leaves hm
  rw [nesGetMapper, hm] at h
  by_cases hid : mapperid = 0
  · replace h := (if_pos hid).symm.trans h
    split at h
    · cases h
    · cases h
      exact hleaves
  · cases (if_neg hid).symm.trans h
    exact hleaves.free_new fun c hc => (hnew c hc).ge

theorem buildCart_leaves {cart : LoadedCart} {i : Nat}
    (h : buildCart call contents s = .ok (cart, i, s')) : s.heap.Leaves s'.heap := by
  obtain ⟨mapper2, -, h⟩ := ok_of_bind h
  obtain ⟨mapper1, -, h⟩ := ok_of_bind h
  rcases hm : s.malloc call.refused .cart with ⟨nesCart, s₁⟩
  rw [hm] at h
  cases nesCart with
  | none => cases h
  | some block =>
      obtain ⟨prgRomChunks, -, h⟩ := ok_of_bind h
      rcases hm₁ : s₁.malloc call.refused .prgMem with ⟨prgMem, s₂⟩
      simp only [hm₁] at h
      obtain ⟨prg, -, h⟩ := ok_of_bind h
      obtain ⟨chrRomChunks, -, h⟩ := ok_of_bind h
      rcases hm₂ : s₂.malloc call.refused .chrMem with ⟨chrMem, s₃⟩
      simp only [hm₂] at h
      obtain ⟨chr, -, h⟩ := ok_of_bind h
      obtain ⟨⟨mapper, s₄⟩, hmapper, h⟩ := ok_of_bind h
      cases h
      have hdata := (malloc_leaves hm₁).1.trans (malloc_leaves hm₂).1
      exact ((malloc_leaves hm).1.trans hdata).trans (nesGetMapper_leaves hmapper)

/-- The pointer that is freed at the end lies behind the header, so it is no base. -/
theorem installed_leaves {cart : LoadedCart} {cartbuffer : Ptr} {t : Loader}
    (hadvanced : 0 < cartbuffer.offset) (hleaves : s.heap.Leaves t.heap)
    (hnew : ∀ b ∈ cart.blocks, s.heap.blocks.length ≤ b) :
    s.heap.Leaves (installed cartbuffer cart t).2.heap := by
  have hnot : ∀ b < t.heap.blocks.length, some cartbuffer ≠ some (base b) := by
    intro b _ he
    rw [Option.some.inj he] at hadvanced
    exact absurd hadvanced (lt_irrefl 0)
  have hfree := hleaves.trans (t.heap.free_leaves hnot)
  unfold installed closeCart
  split
  · rw [freeCart_heap]
    exact hfree.freeAll_new hnew
  · exact hfree

end Leaves

variable {call : LoadCall} {s s' : Loader} {code : Int} {file : CartFile}

theorem freeLoaded_blocks (s : Loader) : (freeLoaded s).heap.blocks = s.heap.blocks := by
  unfold freeLoaded
  split
  · rfl
  · rw [freeCart_heap, Heap.freeAll_blocks]

theorem noStat_returnsResources (s : Loader) :
    ReturnsResources s (((freeLoaded s).act .fopen).act .fclose) := by
  refine ⟨?_, fun b hb hbuffer => ?_⟩
  · simp [Loader.act, freeLoaded_actions]
  · have hnone := List.getElem?_eq_none ((freeLoaded_blocks s).symm ▸ hb)
    cases hnone.symm.trans hbuffer

theorem loadBuffer_leaves {t : Loader} {cartbuffer : Nat} {contents : List U8}
    (h : loadBuffer call cartbuffer contents t = .ok (code, s')) : t.heap.Leaves s'.heap := by
  obtain ⟨found, -, h⟩ := ok_of_bind h
  cases found with
  | false =>
      cases h
      exact .refl _
  | true =>
      obtain ⟨empty, -, h⟩ := ok_of_bind h
      cases empty with
      | false => cases h
      | true =>
          obtain ⟨⟨cart, i, u⟩, hbuild, h⟩ := ok_of_bind h
          obtain ⟨rfl, -, hbuilt, -⟩ := buildCart_ok hbuild
          obtain ⟨-, hinstall⟩ := installCart_ok h
          have hadvanced : 0 < (⟨cartbuffer, chrStart contents⟩ : Ptr).offset :=
            Nat.lt_of_lt_of_le (by decide) (header_le_chrStart contents)
          have hleaves := installed_leaves hadvanced (buildCart_leaves hbuild) hbuilt.new
          rwa [hinstall] at hleaves

theorem buffer_kept (hopen : call.fopen = some file) (hstat : file.statres = 0)
    (h : nesLoadCart call s = .ok (code, s')) :
    s'.heap.blocks[s.heap.blocks.length]? = some .cartbuffer ∧
      s'.heap.freed.count (base s.heap.blocks.length) =
        (freeLoaded s).heap.freed.count (base s.heap.blocks.length) := by
  simp only [nesLoadCart, hopen] at h
  replace h := (if_neg (not_not_intro hstat)).symm.trans h
  cases hrefused : call.refused .cartbuffer with
  | true =>
      rw [Loader.malloc, hrefused] at h
      cases h
  | false =>
      rw [Loader.malloc, hrefused] at h
      have hleaves := loadBuffer_leaves h
      have hlen : s.heap.blocks.length < ((freeLoaded s).heap.blocks ++ [Kind.cartbuffer]).length := by
        rw [freeLoaded_blocks, List.length_append]
        exact Nat.lt_succ_self _
      refine ⟨?_, hleaves.freed _ hlen⟩
      obtain ⟨rest, hrest⟩ := hleaves.blocks
      have hat : ((freeLoaded s).heap.blocks ++ [Kind.cartbuffer])[s.heap.blocks.length]? = some .cartbuffer := by
        rw [← freeLoaded_blocks s]
        exact List.getElem?_concat_length
      rw [← hrest]
      exact (List.getElem?_append_left hlen).trans hat

theorem returnsResources_iff (hopen : call.fopen = some file)
    (hload : nesLoadCart call s = .ok (code, s')) : ReturnsResources s s' ↔ file.statres ≠ 0 := by
  constructor
  · intro hret hstat
    obtain ⟨hbuffer, hkept⟩ := buffer_kept hopen hstat hload
    have hfreed := hret.freed _ le_rfl hbuffer
    omega
  · intro hstat
    cases nesLoadCart_exit hload with
    | notFound hnone => cases hnone.symm.trans hopen
    | noStat => exact noStat_returnsResources s
    | badMagic file' hopen' hok | read file' hopen' hok =>
        cases hopen'.symm.trans hopen
        exact absurd hok hstat

/-- A call that finds a file of nothing but a header with these first bytes. -/
def headerCall (identstr : List U8) (statres : Int) : LoadCall where
  fopen := some ⟨identstr ++ [0x1A, 0, 0, 0, 0, 0, 0, 0, 0, 0, 0, 0, 0], statres⟩
  addressZero _ := 0
  refused _ := false
  splitLeft := 0

theorem noStat_returns :
    ∃ s', nesLoadCart (headerCall magic 1) start = .ok (BAD_ROM, s') ∧ ReturnsResources start s' := by
  have hreturns : nesLoadCart (headerCall magic 1) start =
      .ok (BAD_ROM, ((freeLoaded start).act .fopen).act .fclose) := rfl
  exact ⟨_, hreturns, (returnsResources_iff rfl hreturns).mpr (by decide)⟩

/-- A rejected file stays open. Of an accepted one, the pointer that is freed is the
buffer advanced by the size of the header. -/
theorem loaded_not_returned :
    (∃ s', nesLoadCart (headerCall [0x4E, 0x45, 0x58] 0) start = .ok (BAD_ROM, s') ∧
      s'.actions.count .fclose = 0 ∧ s'.heap = ⟨[.cartbuffer], []⟩ ∧ ¬ ReturnsResources start s') ∧
    ∃ s', nesLoadCart (headerCall magic 0) start = .ok (ROM_OK, s') ∧
      s'.heap.blocks[0]? = some .cartbuffer ∧ s'.heap.freed = [⟨0, 16⟩] ∧ ¬ ReturnsResources start s' := by
  refine ⟨⟨_, rfl, rfl, rfl, fun h => absurd h.closed ?_⟩, after (headerCall magic 0) start,
    after_eq (by decide +kernel), by decide +kernel, by decide +kernel, fun h => ?_⟩
  · decide
  · exact absurd (h.freed 0 le_rfl (by decide +kernel)) (by decide +kernel)

end MetalNes.CartResources
