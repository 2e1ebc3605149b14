import MetalNes.HeapSpecs

namespace MetalNes.Liballoc

open ByteWords Loop
open PageChunks (NULL)
open PageRuns (Block)
open Segments Tilings

section Free

variable {σ : Type} {hooks : Hooks σ} {Owned : σ → Bytes → List Block → Prop} {h h' : Heap σ}
variable {runs pre post : List PageRun} {chain : Int → List U32} {live before after : List Object} {o : Object}
variable {b : Block} {xs ys : List U32} {t : U32} {i : Int} {fuel : Nat}

/-- The pages that a whole run goes back with are those it came with. -/
theorem pagesOf_whole (hs : h.Good (pre ++ ⟨b, [t]⟩ :: post) chain live (some t)) :
    t = b.addr ∧ pagesOf (get h.mem t .realSize) = b.pages := by
  have hrun := hs.shape.run_shape _ (List.mem_append_right pre List.mem_cons_self)
  have hstart : t = b.addr := hrun.links.start.symm
  obtain ⟨-, htotal⟩ := tiles_singleton.mp hrun.tiles
  have henough := hrun.enough
  have hfits := hrun.fits
  have hlen : (get h.mem t .realSize).toNat = 4096 * b.pages.toNat := by
    have htotal' : b.addr.toNat + (get h.mem t .realSize).toNat = b.addr.toNat + 4096 * b.pages.toNat := htotal
    omega
  have hdiv : (get h.mem t .realSize / pageSize).toNat = b.pages.toNat := by
    rw [BitVec.toNat_udiv, hlen]
    exact Nat.mul_div_cancel_left _ (by decide)
  have hmod : get h.mem t .realSize % pageSize = 0 := by
    apply BitVec.eq_of_toNat_eq
    rw [BitVec.toNat_umod, hlen]
    exact Nat.mul_mod_right _ _
  refine ⟨hstart, ?_⟩
  simp only [pagesOf, hmod, ne_eq, not_true, if_false]
  rw [if_neg]
  · exact BitVec.eq_of_toNat_eq hdiv
  · rw [BitVec.lt_def, hdiv]
    exact Nat.not_lt.mpr henough

theorem putBack_good (hs : h.Good (pre ++ ⟨b, xs ++ t :: ys⟩ :: post) chain live (some t))
    (haround : Fields.UsedAround (get h.mem) xs ys) (hi : bucketOf (get h.mem t .realSize - sizeofTag) = i)
    (hfull : xs = [] ∧ ys = [] → h.completePages i ≠ MAXCOMPLETE) {completePages : Int → Int}
    (hcomplete : completePages =
      if xs = [] ∧ ys = [] then Function.update h.completePages i (h.completePages i + 1) else h.completePages) :
    ∃ chain', (insertTag { h with completePages } t i).Good (pre ++ ⟨b, xs ++ t :: ys⟩ :: post) chain' live none ∧
      Within live ((pre ++ ⟨b, xs ++ t :: ys⟩ :: post).map PageRun.block) h
        (insertTag { h with completePages } t i) := by
  obtain ⟨h8, h32⟩ := hi ▸ bucketOf_range (get h.mem t .realSize - sizeofTag)
  obtain ⟨chain', hsound⟩ := hs.putBack haround hi hfull
  have hindex : (if i < 0 then bucketOf (get h.mem t .realSize - sizeofTag) else i) = i := if_neg (by omega)
  obtain ⟨hw, hpages⟩ := insertTag_wrote (h := { h with completePages }) (Wrote.refl _ h.mem) hs.shape.apart
    (hs.held t rfl).1 hindex fun hfirst => (hs.shape.buckets.first_mem (by omega) h32 hfirst).1
  rw [← hcomplete] at hsound
  refine ⟨chain', ?_, hs.touched hw, rfl, rfl⟩
  rw [Heap.Good, hpages]
  exact hsound.read hw.fields

theorem returnTag_spec (hl : Lawful hooks Owned)
    (hs : h.Good (pre ++ ⟨b, xs ++ t :: ys⟩ :: post) chain live (some t))
    (haround : Fields.UsedAround (get h.mem) xs ys)
    (ho : Owned h.below h.mem ((pre ++ ⟨b, xs ++ t :: ys⟩ :: post).map PageRun.block))
    (hcall : returnTag hooks h t = some h') :
    h'.initialized = h.initialized ∧ Kept live h.mem h'.mem ∧ Inv Owned h' live := by
  have hrun := hs.shape.run_shape _ (List.mem_append_right pre List.mem_cons_self)
  have hput : ∀ completePages,
      (xs = [] ∧ ys = [] → h.completePages (bucketOf (get h.mem t .realSize - sizeofTag)) ≠ MAXCOMPLETE) →
      (completePages = if xs = [] ∧ ys = [] then
        Function.update h.completePages (bucketOf (get h.mem t .realSize - sizeofTag))
          (h.completePages (bucketOf (get h.mem t .realSize - sizeofTag)) + 1) else h.completePages) →
      h' = insertTag { h with completePages } t (bucketOf (get h.mem t .realSize - sizeofTag)) →
      h'.initialized = h.initialized ∧ Kept live h.mem h'.mem ∧ Inv Owned h' live := by
    rintro completePages hfull hcomplete rfl
    obtain ⟨chain', hgood, hwithin⟩ := putBack_good hs haround rfl hfull hcomplete
    refine ⟨hwithin.initialized_eq, hwithin.touched.kept, _, chain', hgood, ?_⟩
    rw [hwithin.below_eq]
    exact hl.write ho hwithin.touched.inside
  rw [returnTag] at hcall
  by_cases hwhole : xs = [] ∧ ys = []
  · rw [if_pos ((isWhole_iff hrun).mpr hwhole)] at hcall
    by_cases hfull : h.completePages (bucketOf (get h.mem t .realSize - sizeofTag)) = MAXCOMPLETE
    · rw [if_pos hfull] at hcall
      obtain ⟨rfl, rfl⟩ := hwhole
      obtain ⟨⟨below, mem⟩, hfree, rfl⟩ := Option.map_eq_some_iff.mp hcall
      obtain ⟨hstart, hpages⟩ := pagesOf_whole hs
      rw [hpages, hstart] at hfree
      rw [List.map_append, List.map_cons] at ho
      obtain ⟨hkeep, howned⟩ := hl.free ho hfree
      obtain ⟨hgood, hkept⟩ := Sound.of_pages hs.giveBack fun c hc => hkeep c (by rwa [List.map_append] at hc)
      refine ⟨rfl, hkept, pre ++ post, chain, hgood, ?_⟩
      rw [List.map_append]
      exact howned
    · rw [if_neg hfull] at hcall
      exact hput _ (fun _ => hfull) (if_pos hwhole).symm (Option.some.inj hcall).symm
  · rw [if_neg (mt (isWhole_iff hrun).mp hwhole)] at hcall
    exact hput _ (fun hw => absurd hw hwhole) (if_neg hwhole).symm (Option.some.inj hcall).symm

theorem free_melts (hooks : Hooks σ) (hs : h.Good runs chain (before ++ o :: after) none) :
    ∃ h₁ t pre b xs ys post chain₁, h₁.Good (pre ++ ⟨b, xs ++ t :: ys⟩ :: post) chain₁ (before ++ after) (some t) ∧
      b.addr.toNat ≤ o.ptr.toNat ∧ Fields.UsedAround (get h₁.mem) xs ys ∧
      Within (before ++ after) (runs.map PageRun.block) h h₁ ∧
      (pre ++ ⟨b, xs ++ t :: ys⟩ :: post).map PageRun.block = runs.map PageRun.block ∧
      (∃ fuel, free hooks fuel h o.ptr = returnTag hooks h₁ t) ∧
      ∀ fuel h', free hooks fuel h o.ptr = some h' → ∀ hooks' : Hooks σ,
        free hooks' fuel h o.ptr = returnTag hooks' h₁ t := by
  obtain ⟨t, ht, hidle, rfl, hhand⟩ := hs.grab
  obtain ⟨hpos, hfits, hbig⟩ := hs.tag_fits ht
  have hptr : (t + sizeofTag).toNat = t.toNat + 32 := by
    simp only [sizeofTag]
    bv_omega
  have hne : t + sizeofTag ≠ NULL := by
    intro heq
    rw [heq] at hptr
    exact absurd hptr.symm (Nat.succ_ne_zero _)
  have htag : t + sizeofTag - sizeofTag = t := BitVec.add_sub_cancel t sizeofTag
  have hmagic : get h.mem t .magic = LIBALLOC_MAGIC := by
    obtain ⟨r, hr, htr⟩ := mem_allTags.mp ht
    exact (hs.shape.run_shape r hr).magic t htr
  simp only [free, if_neg hne, htag, hmagic, ne_eq, not_true, if_false]
  obtain ⟨pre, b, xs, ys, post, rfl⟩ := exists_middle ht
  obtain ⟨h₁, t₁, xs₁, chain₁, hreturns₁, hgood₁, hwithin₁, hused₁⟩ := meltLeft_loop hhand
  obtain ⟨h₂, ys₂, chain₂, hreturns₂, hgood₂, hwithin₂, haround⟩ := meltRight_loop hgood₁ hused₁
  rw [blocks_middle _ (xs ++ t :: ys)] at hwithin₁ hwithin₂
  have hstart := ((hs.shape.run_shape _ (List.mem_append_right pre List.mem_cons_self)).inside
    (List.mem_append_right xs List.mem_cons_self)).1
  refine ⟨h₂, t₁, pre, b, xs₁, ys₂, post, chain₂, hgood₂, by simp only at hstart ⊢; omega, haround,
    hwithin₁.trans hwithin₂, blocks_middle _ _, ?_, ?_⟩
  · obtain ⟨m, hm⟩ := hreturns₁
    obtain ⟨n, hn⟩ := hreturns₂
    refine ⟨max m n, ?_⟩
    simp only [run_mono (Nat.le_max_left m n) hm, run_mono (Nat.le_max_right m n) hn, Option.bind_some]
  · intro fuel h' hcall hooks'
    obtain ⟨s₁, hleft, hcall⟩ := Option.bind_eq_some_iff.mp hcall
    obtain ⟨s₂, hright, -⟩ := Option.bind_eq_some_iff.mp hcall
    obtain rfl : s₁ = (h₁, t₁) := Returns.unique ⟨fuel, hleft⟩ hreturns₁
    obtain rfl : s₂ = (h₂, t₁) := Returns.unique ⟨fuel, hright⟩ hreturns₂
    simp only [hleft, hright, Option.bind_some]

theorem free_spec (hl : Lawful hooks Owned) (hinv : Inv Owned h (before ++ o :: after))
    (hcall : free hooks fuel h o.ptr = some h') : h'.initialized = h.initialized ∧
      Kept (before ++ after) h.mem h'.mem ∧ Inv Owned h' (before ++ after) := by
  obtain ⟨runs, chain, hs, ho⟩ := hinv
  obtain ⟨h₁, t, pre, b, xs, ys, post, chain₁, hgood, -, haround, hwithin, hblocks, -, hfree⟩ := free_melts hooks hs
  have howned : Owned h₁.below h₁.mem ((pre ++ ⟨b, xs ++ t :: ys⟩ :: post).map PageRun.block) := by
    rw [hblocks, hwithin.below_eq]
    exact hl.write ho hwithin.touched.inside
  obtain ⟨hinit, hkept, hinv⟩ := returnTag_spec hl hgood haround howned ((hfree fuel h' hcall hooks).symm.trans hcall)
  exact ⟨hinit.trans hwithin.initialized_eq, Kept.trans hwithin.touched.kept hkept, hinv⟩

end Free

end MetalNes.Liballoc
