import MetalNes.MeltLoops

namespace MetalNes.Liballoc

open ByteWords Loop
open PageChunks (NULL)
open PageRuns (Block)
open Segments Tilings

variable {σ : Type} {h : Heap σ} {runs pre post : List PageRun} {chain : Int → List U32} {live : List Object}
variable {b : Block} {xs ys : List U32} {t size : U32}

theorem setSize_good (hs : h.Good runs chain live (some t)) (size : U32) :
    Heap.Good { h with mem := set h.mem t .size size } runs chain live (some t) ∧
      Within live (runs.map PageRun.block) h { h with mem := set h.mem t .size size } ∧
      Wrote (allTags runs) h.mem (set h.mem t .size size) (Fields.set (get h.mem) t .size size) := by
  have hw := (Wrote.refl _ h.mem).set hs.shape.apart (hs.held t rfl).1 .size size
  refine ⟨hs.congr (fun u hu f hf => ?_) (fun u hu hne => ?_), ⟨hs.touched hw, rfl, rfl⟩, hw⟩
  · show get (set h.mem t .size size) u f = get h.mem u f
    rw [hw.fields u hu, Fields.set_apply, if_neg fun hboth => hf hboth.2]
  · show get (set h.mem t .size size) u .size = get h.mem u .size
    rw [hw.fields u hu, Fields.set_apply, if_neg fun hboth => hne (congrArg some hboth.1)]

/-- Every tag of mem' is in use, or was in mem at the same index, or is one of the index i. -/
def Leaves (tags tags' : List U32) (mem mem' : Bytes) (i : Int) : Prop :=
  ∀ u ∈ tags', indexOf mem' u = -1 ∨ u ∈ tags ∧ indexOf mem' u = indexOf mem u ∨ indexOf mem' u = i

/-- What malloc leaves of the tag that it gives out. -/
structure Carved (live : List Object) (runs : List PageRun) (h : Heap σ) (t size : U32) (h' : Heap σ) (ptr : U32) :
    Prop where
  ptr_eq : ptr = t + sizeofTag
  good : ∃ runs' chain, h'.Good runs' chain (⟨ptr, size⟩ :: live) none ∧
    runs'.map PageRun.block = runs.map PageRun.block ∧
    Leaves (allTags runs) (allTags runs') h.mem h'.mem (bucketOf (get h.mem t .realSize - sizeofTag - size - sizeofTag))
  within : Within live (runs.map PageRun.block) h h'
  waste : Fields.len (get h'.mem) t < size.toNat + 320 ∨ 2 ^ 31 ≤ Fields.len (get h.mem) t

theorem splitTag_good (hs : h.Good (pre ++ ⟨b, xs ++ t :: ys⟩ :: post) chain live (some t))
    (hright : ∀ r ∈ ys.head?, indexOf h.mem r = -1)
    (hroom : (get h.mem t .size).toNat + 96 ≤ Fields.len (get h.mem) t) :
    ∃ n chain', (splitTag h t).Good (pre ++ ⟨b, xs ++ t :: n :: ys⟩ :: post) chain' live (some t) ∧
      Within live ((pre ++ ⟨b, xs ++ t :: n :: ys⟩ :: post).map PageRun.block) h (splitTag h t) ∧
      get (splitTag h t).mem t .size = get h.mem t .size ∧
      Fields.len (get (splitTag h t).mem) t = (get h.mem t .size).toNat + 32 ∧
      Leaves (allTags (pre ++ ⟨b, xs ++ t :: ys⟩ :: post)) (allTags (pre ++ ⟨b, xs ++ t :: n :: ys⟩ :: post)) h.mem
        (splitTag h t).mem (bucketOf (get h.mem t .realSize - sizeofTag - get h.mem t .size - sizeofTag)) := by
  obtain ⟨ht, hidle⟩ := hs.held t rfl
  obtain ⟨hpos, hfits, -⟩ := hs.tag_fits ht
  have hrun := hs.shape.run_shape _ (List.mem_append_right pre List.mem_cons_self)
  obtain ⟨v, hv⟩ : ∃ v, get h.mem t .realSize - sizeofTag - get h.mem t .size = v := ⟨_, rfl⟩
  obtain ⟨n, hn⟩ : ∃ n, t + sizeofTag + get h.mem t .size = n := ⟨_, rfl⟩
  have hvnat : v.toNat + (get h.mem t .size).toNat + 32 = Fields.len (get h.mem) t := by
    simp only [Fields.len, sizeofTag] at *
    bv_omega
  have hnnat : n.toNat = t.toNat + 32 + (get h.mem t .size).toNat := by
    simp only [Fields.len, sizeofTag] at *
    bv_omega
  obtain ⟨hfresh, chain', hsound⟩ :=
    hs.split (v := v) (n := n) hright (by omega) (by omega) (by omega) rfl
  have hne : t ≠ n := fun heq => hfresh (heq ▸ ht)
  have hsub : ∀ u ∈ allTags (pre ++ ⟨b, xs ++ t :: ys⟩ :: post),
      u ∈ allTags (pre ++ ⟨b, xs ++ t :: n :: ys⟩ :: post) := fun u hu => by
    exact (allTags_behind _ _ _ _ _ _ _ _).mpr (Or.inr hu)
  have hnmem : n ∈ allTags (pre ++ ⟨b, xs ++ t :: n :: ys⟩ :: post) :=
    (allTags_middle _ _ _ _).mpr (Or.inl (by simp))
  have hapart := hsound.shape.apart
  have hlinked := linkNewTag_wrote (Wrote.refl _ h.mem) hapart (hsub t ht) hnmem hne
    (fun hn' => hsub _ ((allTags_middle _ _ _ _).mpr (Or.inl ((hrun.links.next_mem (by simp)).resolve_right hn')))) v
  obtain ⟨h8, h32⟩ := bucketOf_range (v - sizeofTag)
  have hclass : (if (-1 : Int) < 0 then
      bucketOf (Fields.linkNewTag (get h.mem) t n v n .realSize - sizeofTag) else -1) = bucketOf (v - sizeofTag) := by
    rw [if_pos (by decide), linkNewTag_realSize _ hne, if_neg hne.symm, if_pos rfl]
  obtain ⟨hw, hpages⟩ := insertTag_wrote (h := { h with mem := linkNewTag h.mem t n v }) hlinked hapart hnmem hclass
    fun hfirst => hsub _ (hs.shape.buckets.first_mem (by omega) h32 hfirst).1
  have hcall : splitTag h t = insertTag { h with mem := linkNewTag h.mem t n v } n (-1) := by
    rw [splitTag]
    simp only [hv, hn]
  have hindex : ∀ u ∈ allTags (pre ++ ⟨b, xs ++ t :: n :: ys⟩ :: post),
      indexOf (insertTag { h with mem := linkNewTag h.mem t n v } n (-1)).mem u =
        if u = n then bucketOf (v - sizeofTag) else (Fields.linkNewTag (get h.mem) t n v).idx u := fun u hu => by
    rw [indexOf, hw.fields u hu]
    exact insertTag_idx (by omega) h32
  rw [hcall]
  refine ⟨n, chain', ?_, ⟨hsound.touched hw, rfl, rfl⟩, ?_, ?_, fun u hu => ?_⟩
  · rw [Heap.Good, hpages]
    exact hsound.read hw.fields
  · rw [hw.fields t (hsub t ht), insertTag_same _ (by decide) (by decide) (by decide),
      linkNewTag_same _ hne (by decide) (by decide) (by decide)]
  · rw [Fields.len, hw.fields t (hsub t ht), insertTag_same _ (by decide) (by decide) (by decide),
      linkNewTag_realSize _ hne, if_pos rfl]
    simp only [Fields.len] at *
    bv_omega
  · rw [hindex u hu]
    by_cases hun : u = n
    · rw [if_pos hun, hv]
      exact Or.inr (Or.inr rfl)
    · have hold : u ∈ allTags (pre ++ ⟨b, xs ++ t :: ys⟩ :: post) :=
        ((allTags_behind _ _ _ _ _ _ _ _).mp hu).resolve_left hun
      rw [if_neg hun, Fields.idx, linkNewTag_same _ hun (by decide) (by decide) (by decide)]
      exact Or.inr (Or.inl ⟨hold, rfl⟩)

theorem carveTag_good (hs : h.Good (pre ++ ⟨b, xs ++ t :: ys⟩ :: post) chain live (some t))
    (hright : ∀ r ∈ ys.head?, indexOf h.mem r = -1) (hroom : size.toNat + 32 ≤ Fields.len (get h.mem) t) :
    Carved live (pre ++ ⟨b, xs ++ t :: ys⟩ :: post) h t size (carveTag h t size).1 (carveTag h t size).2 := by
  obtain ⟨ht, hidle⟩ := hs.held t rfl
  obtain ⟨hgood, hwithin, hw⟩ := setSize_good hs size
  have hsize : get (set h.mem t .size size) t .size = size := by
    rw [hw.fields t ht, Fields.set_apply, if_pos ⟨rfl, rfl⟩]
  have hreal : get (set h.mem t .size size) t .realSize = get h.mem t .realSize := by
    rw [hw.fields t ht, Fields.set_apply, if_neg fun hboth => absurd hboth.2 (by decide)]
  have hindex : ∀ u ∈ allTags (pre ++ ⟨b, xs ++ t :: ys⟩ :: post),
      indexOf (set h.mem t .size size) u = indexOf h.mem u := fun u hu => by
    rw [indexOf, hw.fields u hu, Fields.set_apply, if_neg fun hboth => absurd hboth.2 (by decide)]
    rfl
  have hright' : ∀ r ∈ ys.head?, indexOf (set h.mem t .size size) r = -1 := by
    intro r hr
    have hmem : r ∈ allTags (pre ++ ⟨b, xs ++ t :: ys⟩ :: post) := by
      refine (allTags_middle _ _ _ _).mpr (Or.inl ?_)
      exact List.mem_append_right xs (List.mem_cons_of_mem t (List.mem_of_mem_head? hr))
    exact (hindex r hmem).trans (hright r hr)
  obtain ⟨rem, hrem⟩ : ∃ rem, get (set h.mem t .size size) t .realSize - size - sizeofTag * 2 = rem := ⟨_, rfl⟩
  have hlen : Fields.len (get (set h.mem t .size size)) t = Fields.len (get h.mem) t := congrArg BitVec.toNat hreal
  by_cases hsplit : 0 < rem.toInt ∧ 0 ≤ getexp rem
  · have hge := getexp_nonneg_iff.mp hsplit.2
    have hint := hsplit.1
    have hfull : size.toNat + 96 ≤ Fields.len (get h.mem) t := by
      rw [BitVec.toInt_eq_toNat_cond] at hint
      rw [hreal] at hrem
      simp only [Fields.len, sizeofTag] at *
      split at hint <;> bv_omega
    obtain ⟨n, chain', hgood', hwithin', hsize', hlen', hleaves⟩ := splitTag_good hgood hright' (by
      rw [hlen, hsize]
      exact hfull)
    rw [hsize] at hsize' hlen'
    rw [hreal, hsize] at hleaves
    have hcall : carveTag h t size = (splitTag { h with mem := set h.mem t .size size } t, t + sizeofTag) := by
      simp only [carveTag, hrem]
      rw [if_pos hsplit]
    rw [hcall]
    have hgive := hgood'.give (by rw [hsize', hlen']; omega)
    rw [hsize'] at hgive
    have hlt : Fields.len (get (splitTag { h with mem := set h.mem t .size size } t).mem) t < size.toNat + 320 := by
      omega
    refine ⟨rfl, ⟨_, chain', hgive, blocks_middle _ _, fun u hu => ?_⟩, hwithin.trans ?_, Or.inl hlt⟩
    · refine (hleaves u hu).imp_right fun hcases => hcases.imp_left fun hold => ⟨hold.1, hold.2.trans ?_⟩
      exact hindex u hold.1
    rwa [blocks_middle _ (xs ++ t :: n :: ys)]
  · have hcall : carveTag h t size = ({ h with mem := set h.mem t .size size }, t + sizeofTag) := by
      simp only [carveTag, hrem]
      rw [if_neg hsplit]
    have hgive := hgood.give (by
      rw [hlen, hsize]
      omega)
    rw [hsize] at hgive
    rw [hcall]
    refine ⟨rfl, ⟨_, chain, hgive, rfl, fun u hu => Or.inr (Or.inl ⟨hu, hindex u hu⟩)⟩, hwithin, ?_⟩
    rw [hlen]
    by_cases hge : 256 ≤ rem.toNat
    · have hint : ¬ 0 < rem.toInt := fun hpos => hsplit ⟨hpos, getexp_nonneg_iff.mpr hge⟩
      rw [BitVec.toInt_eq_toNat_cond] at hint
      rw [hreal] at hrem
      simp only [Fields.len, sizeofTag] at *
      split at hint <;> bv_omega
    · rw [hreal] at hrem
      simp only [Fields.len, sizeofTag] at *
      bv_omega

end MetalNes.Liballoc
