import MetalNes.FreeSpecs
import MetalNes.HeapCopies

namespace MetalNes.Liballoc

open ByteWords Loop
open PageChunks (NULL)
open PageRuns (Block)

variable {σ : Type} {hooks : Hooks σ} {Owned : σ → Bytes → List Block → Prop} {h h' : Heap σ}
variable {live before after : List Object} {o : Object} {p size nobj : U32} {fuel : Nat}

theorem Inv.disjoint (hinv : Inv Owned h live) : live.Pairwise fun o p => Disjoint o.extent p.extent := by
  obtain ⟨runs, chain, hs, -⟩ := hinv
  have hall : ∀ o ∈ live, ∀ p ∈ live, o ≠ p → Disjoint o.extent p.extent := by
    intro o ho p hp hne
    obtain ⟨t, ht, -, hidle, rfl⟩ := (hs.owned o).mp ho
    obtain ⟨u, hu, -, hidle', rfl⟩ := (hs.owned p).mp hp
    have htu : t ≠ u := fun heq => hne (by rw [heq])
    obtain ⟨hpos, hfits, hbig⟩ := hs.tag_fits ht
    obtain ⟨hpos', hfits', hbig'⟩ := hs.tag_fits hu
    have hroom := hs.room t ht (Option.some_ne_none t) hidle
    have hroom' := hs.room u hu (Option.some_ne_none u) hidle'
    have hspaces := hs.shape.spaces_apart ht hu htu
    have hptr : (t + sizeofTag).toNat = t.toNat + 32 := by
      simp only [sizeofTag]
      bv_omega
    have hptr' : (u + sizeofTag).toNat = u.toNat + 32 := by
      simp only [sizeofTag]
      bv_omega
    rw [Object.extent, Object.extent, Set.Ico_disjoint_Ico]
    simp only [hptr, hptr']
    omega
  exact hs.distinct.pairwise_of_forall_ne hall

theorem Sound.tags_kept {runs : List PageRun} {chain : Int → List U32} (hs : h.Good runs chain live none)
    {mem : Bytes} (hmem : ∀ a, (∀ o ∈ live, a ∉ o.extent) → mem a = h.mem a) {t : U32} (ht : t ∈ allTags runs)
    (f : Field) : get mem t f = get h.mem t f := by
  refine load_congr fun i hi => hmem _ fun o hol hao => ?_
  have hapart := hs.data_apart hol hao ht
  have hoffset := f.offset_le
  omega

theorem Sound.writes_inside {runs : List PageRun} {chain : Int → List U32} (hs : h.Good runs chain live none)
    (hl : Lawful hooks Owned) (ho : Owned h.below h.mem (runs.map PageRun.block)) {mem : Bytes}
    (hmem : ∀ a, (∀ o ∈ live, a ∉ o.extent) → mem a = h.mem a) : Owned h.below mem (runs.map PageRun.block) := by
  refine hl.write ho fun a ha => hmem a fun o hol hao => ?_
  obtain ⟨b, hb, hin⟩ := hs.object_in_run hol
  exact ha b hb (hin a hao)

theorem Inv.write (hl : Lawful hooks Owned) (hinv : Inv Owned h live) {mem : Bytes}
    (hmem : ∀ a, (∀ o ∈ live, a ∉ o.extent) → mem a = h.mem a) : Inv Owned { h with mem } live := by
  obtain ⟨runs, chain, hs, ho⟩ := hinv
  exact ⟨runs, chain, hs.read fun t ht f => hs.tags_kept hmem ht f, hs.writes_inside hl ho hmem⟩

theorem Inv.object_fits (hinv : Inv Owned h live) (ho : o ∈ live) :
    o.ptr ≠ NULL ∧ o.ptr.toNat + o.size.toNat < 2 ^ 32 ∧ get h.mem (o.ptr - sizeofTag) .size = o.size := by
  obtain ⟨runs, chain, hs, -⟩ := hinv
  obtain ⟨t, ht, -, hidle, rfl⟩ := (hs.owned o).mp ho
  obtain ⟨hpos, hfits, hbig⟩ := hs.tag_fits ht
  have hroom := hs.room t ht (Option.some_ne_none t) hidle
  have hptr : (t + sizeofTag).toNat = t.toNat + 32 := by
    simp only [sizeofTag]
    bv_omega
  refine ⟨fun heq => ?_, ?_, ?_⟩
  · rw [show t + sizeofTag = NULL from heq] at hptr
    exact absurd hptr.symm (Nat.succ_ne_zero _)
  · show (t + sizeofTag).toNat + (get h.mem t .size).toNat < 2 ^ 32
    omega
  · show get h.mem (t + sizeofTag - sizeofTag) .size = get h.mem t .size
    rw [BitVec.add_sub_cancel]

theorem calloc_spec (hl : Lawful hooks Owned) (hinit : h.initialized = true) (hinv : Inv Owned h live)
    (hsize : (nobj * size).toNat + 32 < 2 ^ 32) (hcall : calloc hooks fuel h nobj size = some (h', p)) (hp : p ≠ NULL) :
    h'.initialized = true ∧ Kept live h.mem h'.mem ∧ Inv Owned h' (⟨p, nobj * size⟩ :: live) ∧
      ∀ a ∈ Object.extent ⟨p, nobj * size⟩, h'.mem a = 0 := by
  rw [calloc, Option.map_eq_some_iff] at hcall
  obtain ⟨⟨h₁, p₁⟩, hmalloc, hreturn⟩ := hcall
  obtain ⟨rfl, rfl⟩ := Prod.mk.inj hreturn
  obtain ⟨hinit₁, hkept, hcases⟩ := malloc_spec hl hinit hinv hsize hmalloc
  have hinv₁ := (hcases.resolve_left fun hnull => hp hnull.1).2
  have hfits := (hinv₁.object_fits List.mem_cons_self).2.1
  have happly := memset_apply h₁.mem 0 (Nat.le_of_lt hfits)
  refine ⟨hinit₁, fun o ho a ha => ?_, hinv₁.write hl fun a ha => ?_, fun a ha => ?_⟩
  · have hdisjoint := List.rel_of_pairwise_cons hinv₁.disjoint ho
    refine Eq.trans ?_ (hkept o ho a ha)
    exact (happly a).trans (if_neg fun hin => Set.disjoint_left.mp hdisjoint hin ha)
  · exact (happly a).trans (if_neg (ha _ List.mem_cons_self))
  · exact (happly a).trans (if_pos ha)

/-- Objects that do not meet can be copied from the front. -/
theorem Inv.forward (hinv : Inv Owned h (o :: live)) {q : Object} (hq : q ∈ live) {n : Nat}
    (ho : n ≤ o.size.toNat) (hn : n ≤ q.size.toNat) : Forward o.ptr.toNat q.ptr.toNat n := by
  have hdisjoint := List.rel_of_pairwise_cons hinv.disjoint hq
  rw [Object.extent, Object.extent, Set.Ico_disjoint_Ico] at hdisjoint
  unfold Forward
  omega

theorem toNat_copied (old size : U32) : (if old > size then size else old).toNat = min old.toNat size.toNat := by
  split_ifs with hgt
  · exact (Nat.min_eq_right (Nat.le_of_lt hgt)).symm
  · exact (Nat.min_eq_left (Nat.not_lt.mp hgt)).symm

theorem realloc_spec (hl : Lawful hooks Owned) (hinit : h.initialized = true)
    (hinv : Inv Owned h (before ++ o :: after)) (hpos : size ≠ 0) (hsize : size.toNat + 32 < 2 ^ 32)
    (hcall : realloc hooks fuel h o.ptr size = some (h', p)) (hp : p ≠ NULL) :
    h'.initialized = true ∧ Kept (before ++ after) h.mem h'.mem ∧ Inv Owned h' (⟨p, size⟩ :: (before ++ after)) ∧
      ∀ i < min o.size.toNat size.toNat, h'.mem (p.toNat + i) = h.mem (o.ptr.toNat + i) := by
  have hmem : o ∈ before ++ o :: after := List.mem_append_right before List.mem_cons_self
  obtain ⟨hne, hfits, hold⟩ := hinv.object_fits hmem
  have hlen := toNat_copied o.size size
  simp only [realloc, if_neg hpos, if_neg hne, hold] at hcall
  obtain ⟨⟨h₁, p₁⟩, hmalloc, hcall⟩ := Option.bind_eq_some_iff.mp hcall
  obtain ⟨h₂, hfree, hreturn⟩ := Option.map_eq_some_iff.mp hcall
  obtain ⟨rfl, rfl⟩ := Prod.mk.inj hreturn
  obtain ⟨hinit₁, hkept₁, hcases⟩ := malloc_spec hl hinit hinv hsize hmalloc
  have hinv₁ := (hcases.resolve_left fun hnull => hp hnull.1).2
  obtain ⟨-, hfits₁, -⟩ := hinv₁.object_fits List.mem_cons_self
  have hcopy : liballocMemcpy h₁.mem p₁ o.ptr (if o.size > size then size else o.size) =
      moved h₁.mem p₁.toNat o.ptr.toNat (min o.size.toNat size.toNat) := by
    have hforward := hinv₁.forward hmem (Nat.min_le_right o.size.toNat size.toNat) (Nat.min_le_left _ _)
    rw [← hlen] at hforward ⊢
    simp only at hfits₁
    exact memcpy_eq (by omega) (by omega) hforward
  have houtside : ∀ a, a ∉ Object.extent ⟨p₁, size⟩ →
      moved h₁.mem p₁.toNat o.ptr.toNat (min o.size.toNat size.toNat) a = h₁.mem a := by
    intro a ha
    have hnot : ¬ (p₁.toNat ≤ a ∧ a < p₁.toNat + size.toNat) := ha
    exact if_neg (by omega)
  rw [hcopy] at hfree
  have hinv₂ := hinv₁.write hl fun a ha => houtside a (ha _ List.mem_cons_self)
  rw [← List.cons_append] at hinv₂
  obtain ⟨hinit₂, hkept₂, hinv₃⟩ := free_spec hl hinv₂ hfree
  refine ⟨hinit₂.trans hinit₁, fun q hq a ha => ?_, hinv₃, fun i hi => ?_⟩
  · have hold : q ∈ before ++ o :: after := Segments.mem_inserted.mpr (Or.inr hq)
    have hdisjoint := List.rel_of_pairwise_cons hinv₁.disjoint hold
    refine (hkept₂ q (List.mem_cons_of_mem _ hq) a ha).trans (Eq.trans ?_ (hkept₁ q hold a ha))
    exact houtside a fun hin => Set.disjoint_left.mp hdisjoint hin ha
  · have hnew : p₁.toNat + i ∈ Object.extent ⟨p₁, size⟩ := ⟨Nat.le_add_right _ _, by simp only; omega⟩
    have hfrom : o.ptr.toNat + i ∈ o.extent := ⟨Nat.le_add_right _ _, by omega⟩
    refine (hkept₂ _ List.mem_cons_self _ hnew).trans (Eq.trans ?_ (hkept₁ o hmem _ hfrom))
    have hpos : o.ptr.toNat + (p₁.toNat + i - p₁.toNat) = o.ptr.toNat + i := by omega
    show moved h₁.mem p₁.toNat o.ptr.toNat (min o.size.toNat size.toNat) (p₁.toNat + i) = _
    rw [moved, if_pos (by omega), hpos]

end MetalNes.Liballoc
