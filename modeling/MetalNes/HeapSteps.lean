import MetalNes.HeapMoves

namespace MetalNes.Liballoc

open ByteWords Loop
open PageChunks (NULL)
open PageRuns (Block)
open Segments Tilings

variable {σ : Type}

/-- The bytes in use are kept, and nothing outside the pages is written. -/
structure Touched (live : List Object) (blocks : List Block) (mem mem' : Bytes) : Prop where
  kept : ∀ o ∈ live, ∀ a ∈ o.extent, mem' a = mem a
  inside : ∀ a, (∀ b ∈ blocks, a ∉ b.extent) → mem' a = mem a

theorem Touched.refl (live : List Object) (blocks : List Block) (mem : Bytes) : Touched live blocks mem mem :=
  ⟨fun _ _ _ _ => rfl, fun _ _ => rfl⟩

theorem Touched.trans {live : List Object} {blocks : List Block} {mem mem' mem'' : Bytes}
    (h : Touched live blocks mem mem') (h' : Touched live blocks mem' mem'') : Touched live blocks mem mem'' :=
  ⟨fun o ho a ha => (h'.kept o ho a ha).trans (h.kept o ho a ha), fun a ha => (h'.inside a ha).trans (h.inside a ha)⟩

section Frames

variable {F F' : Fields} {freePages : Int → U32} {completePages : Int → Int} {runs : List PageRun}
variable {chain : Int → List U32} {live : List Object} {hand : Option U32} {o : Object} {t : U32} {a : Nat}

theorem Sound.tag_fits (h : Sound F freePages completePages runs chain live hand) (ht : t ∈ allTags runs) :
    0 < t.toNat ∧ t.toNat + F.len t < 2 ^ 32 ∧ 32 ≤ F.len t := by
  obtain ⟨r, hr, htr⟩ := mem_allTags.mp ht
  have hshape := h.shape.run_shape r hr
  have hin := hshape.inside htr
  have hfits := hshape.fits
  have hne := hshape.ne_null htr
  refine ⟨?_, by omega, hshape.big t htr⟩
  simp only [NULL] at hne
  bv_omega

theorem Sound.object_place (h : Sound F freePages completePages runs chain live hand) (ho : o ∈ live) :
    ∃ t ∈ allTags runs, some t ≠ hand ∧ F.idx t = -1 ∧ o.ptr.toNat = t.toNat + 32 ∧ o.size = F t .size ∧
      o.ptr.toNat + o.size.toNat ≤ t.toNat + F.len t := by
  obtain ⟨t, ht, hne, hidle, rfl⟩ := (h.owned o).mp ho
  obtain ⟨hpos, hfits, hbig⟩ := h.tag_fits ht
  have hroom := h.room t ht hne hidle
  have hptr : (t + sizeofTag).toNat = t.toNat + 32 := by
    simp only [sizeofTag]
    bv_omega
  exact ⟨t, ht, hne, hidle, hptr, rfl, by show (t + sizeofTag).toNat + (F t .size).toNat ≤ _; omega⟩

theorem Sound.data_apart (h : Sound F freePages completePages runs chain live hand) (ho : o ∈ live) (ha : a ∈ o.extent)
    (ht : t ∈ allTags runs) : a < t.toNat ∨ t.toNat + 32 ≤ a := by
  obtain ⟨u, hu, -, -, hptr, -, hend⟩ := h.object_place ho
  have hlo : o.ptr.toNat ≤ a := ha.1
  have hhi : a < o.ptr.toNat + o.size.toNat := ha.2
  by_cases htu : t = u
  · rw [htu]
    omega
  · have hspaces := h.shape.spaces_apart ht hu htu
    have hbig := h.shape.big ht
    omega

theorem Sound.touched (h : Sound F freePages completePages runs chain live hand) {mem mem' : Bytes}
    (hw : Wrote (allTags runs) mem mem' F') : Touched live (runs.map PageRun.block) mem mem' := by
  constructor
  · exact fun o ho a ha => hw.outside a fun t ht => h.data_apart ho ha ht
  · intro a ha
    refine hw.outside a fun t ht => ?_
    by_contra hmeet
    obtain ⟨r, hr, htr⟩ := mem_allTags.mp ht
    have hin := (h.shape.run_shape r hr).inside htr
    have hbig := h.shape.big ht
    exact ha r.block (List.mem_map_of_mem hr) ⟨by omega, show a < r.stop by omega⟩

/-- The members that were written are those in memory. -/
theorem Sound.read (h : Sound F freePages completePages runs chain live hand) {mem : Bytes}
    (hfields : ∀ t ∈ allTags runs, ∀ f, get mem t f = F t f) :
    Sound (get mem) freePages completePages runs chain live hand :=
  h.congr (fun t ht f _ => hfields t ht f) fun t ht _ => hfields t ht .size

end Frames

section Steps

variable {h : Heap σ} {runs pre post : List PageRun} {chain : Int → List U32} {live : List Object}
variable {hand : Option U32} {b : Block} {xs ys : List U32} {t : U32} {i : Int}

abbrev Heap.Good (h : Heap σ) (runs : List PageRun) (chain : Int → List U32) (live : List Object)
    (hand : Option U32) : Prop :=
  Sound (get h.mem) h.freePages h.completePages runs chain live hand

theorem isWhole_iff {mem : Bytes} (hr : RunShape (get mem) ⟨b, xs ++ t :: ys⟩) :
    isWhole mem t = true ↔ xs = [] ∧ ys = [] := by
  have hleft := hr.links.middle_prev
  have hright := hr.links.middle_next
  have hnull := hr.links.stop_notMem
  simp only [isWhole, decide_eq_true_eq]
  rw [hleft, hright]
  constructor
  · rintro ⟨hl, hr⟩
    constructor
    · rcases List.eq_nil_or_concat xs with rfl | ⟨xs', l, rfl⟩
      · rfl
      · simp at hl hnull
        tauto
    · cases ys with
      | nil => rfl
      | cons r rest =>
          simp at hr hnull
          tauto
  · rintro ⟨rfl, rfl⟩
    exact ⟨rfl, rfl⟩

theorem Sound.links_mem {F : Fields} {freePages : Int → U32} {completePages : Int → Int}
    (hs : Sound F freePages completePages runs chain live hand) (ht : t ∈ allTags runs) :
    (F t .prev ≠ NULL → F t .prev ∈ allTags runs) ∧ (F t .next ≠ NULL → F t .next ∈ allTags runs) :=
  ⟨fun hne => (hs.shape.buckets.prev_mem ht hne).1, fun hne => (hs.shape.buckets.next_mem ht hne).1⟩

theorem mem_middle (pre post : List PageRun) (b : Block) (xs ys : List U32) (t : U32) :
    t ∈ allTags (pre ++ ⟨b, xs ++ t :: ys⟩ :: post) :=
  (allTags_middle _ _ _ _).mpr (Or.inl (List.mem_append_right xs List.mem_cons_self))

theorem Fields.UsedAround.read {F : Fields} {mem mem' : Bytes} (h : F.UsedAround xs ys)
    (hw : Wrote (allTags (pre ++ ⟨b, xs ++ t :: ys⟩ :: post)) mem mem' F) : Fields.UsedAround (get mem') xs ys := by
  have hidx : ∀ u ∈ xs ++ t :: ys, Fields.idx (get mem') u = F.idx u := fun u hu => by
    rw [Fields.idx, hw.fields u ((allTags_middle _ _ _ _).mpr (Or.inl hu))]
    rfl
  refine ⟨fun l hl => ?_, fun r hr => ?_⟩
  · rw [hidx l (List.mem_append_left _ (List.mem_of_mem_getLast? hl))]
    exact h.1 l hl
  · rw [hidx r (List.mem_append_right xs (List.mem_cons_of_mem t (List.mem_of_mem_head? hr)))]
    exact h.2 r hr

/-- What a step within a call leaves as it was, besides the objects. -/
structure Within (live : List Object) (blocks : List Block) (h h' : Heap σ) : Prop where
  touched : Touched live blocks h.mem h'.mem
  below_eq : h'.below = h.below
  initialized_eq : h'.initialized = h.initialized

theorem Within.refl (live : List Object) (blocks : List Block) (h : Heap σ) : Within live blocks h h :=
  ⟨Touched.refl live blocks h.mem, rfl, rfl⟩

theorem Within.trans {blocks : List Block} {h' h'' : Heap σ} (hw : Within live blocks h h')
    (hw' : Within live blocks h' h'') : Within live blocks h h'' :=
  ⟨hw.touched.trans hw'.touched, hw'.below_eq.trans hw.below_eq, hw'.initialized_eq.trans hw.initialized_eq⟩

theorem takeTag_good (hs : h.Good (pre ++ ⟨b, xs ++ t :: ys⟩ :: post) chain live none)
    (hi : indexOf h.mem t = i) (hfree : i ≠ -1) :
    ∃ chain', (takeTag h t i).Good (pre ++ ⟨b, xs ++ t :: ys⟩ :: post) chain' live (some t) ∧
      Fields.UsedAround (get (takeTag h t i).mem) xs ys ∧
      get (takeTag h t i).mem t .realSize = get h.mem t .realSize ∧
      Within live ((pre ++ ⟨b, xs ++ t :: ys⟩ :: post).map PageRun.block) h (takeTag h t i) := by
  subst hi
  have ht := mem_middle pre post b xs ys t
  obtain ⟨hprev, hnext⟩ := hs.links_mem ht
  obtain ⟨haround, chain', hsound⟩ := hs.take hfree
  have hw := removeTag_wrote (Wrote.refl _ h.mem) hs.shape.apart ht hprev hnext
  have hread := hsound.read hw.fields
  have hrun := hread.shape.run_shape _ (List.mem_append_right pre List.mem_cons_self)
  have hreal : get (removeTag h t).mem t .realSize = get h.mem t .realSize := by
    rw [hw.fields t ht, removeTag_same _ (by decide) (by decide) (by decide)]
  by_cases hwhole : xs = [] ∧ ys = []
  · rw [if_pos hwhole] at hread
    have htake : takeTag h t (indexOf h.mem t) = { removeTag h t with
        completePages :=
          Function.update h.completePages (indexOf h.mem t) (h.completePages (indexOf h.mem t) - 1) } := by
      simp only [takeTag, (isWhole_iff hrun).mpr hwhole, if_true]
      rfl
    rw [htake]
    exact ⟨chain', hread, haround.read hw, hreal, hs.touched hw, rfl, rfl⟩
  · rw [if_neg hwhole] at hread
    have htake : takeTag h t (indexOf h.mem t) = removeTag h t := by
      simp only [takeTag, mt (isWhole_iff hrun).mp hwhole]
      rfl
    rw [htake]
    exact ⟨chain', hread, haround.read hw, hreal, hs.touched hw, rfl, rfl⟩

theorem removeTag_freePages {tags : List U32} {mem : Bytes} {F : Fields} (hw : Wrote tags mem h.mem F) (ht : t ∈ tags) :
    (removeTag h t).freePages =
      if h.freePages (F.idx t) = t then Function.update h.freePages (F.idx t) (F t .next) else h.freePages := by
  have hidx : indexOf h.mem t = F.idx t := congrArg BitVec.toInt (hw.fields t ht .index)
  simp only [removeTag]
  rw [hidx, hw.fields t ht .next]

theorem blocks_middle (tags tags' : List U32) :
    (pre ++ ⟨b, tags⟩ :: post).map PageRun.block = (pre ++ ⟨b, tags'⟩ :: post).map PageRun.block := by
  simp

theorem meltLeft_pass {l : U32} (hs : h.Good (pre ++ ⟨b, xs ++ l :: t :: ys⟩ :: post) chain live (some t))
    (hfree : 0 ≤ indexOf h.mem l) : ∃ h' chain', meltLeftBody (h, t) = .next (h', l) ∧
      h'.Good (pre ++ ⟨b, xs ++ l :: ys⟩ :: post) chain' live (some l) ∧
      Within live ((pre ++ ⟨b, xs ++ l :: ys⟩ :: post).map PageRun.block) h h' := by
  have hl := mem_middle pre post b xs (t :: ys) l
  have ht := (hs.held t rfl).1
  have hrun := hs.shape.run_shape _ (List.mem_append_right pre List.mem_cons_self)
  have hleft : get h.mem t .splitLeft = l := by
    have hlinks : Whole NULL (get h.mem · .splitRight) (get h.mem · .splitLeft) b.addr ((xs ++ [l]) ++ t :: ys) := by
      simpa using hrun.links
    simpa using hlinks.middle_prev
  have hright : get h.mem t .splitRight ≠ NULL →
      get h.mem t .splitRight ∈ allTags (pre ++ ⟨b, xs ++ l :: t :: ys⟩ :: post) := fun hne =>
    (allTags_middle _ _ _ _).mpr (Or.inl ((hrun.links.next_mem (by simp)).resolve_right hne))
  have htl : t ≠ l := fun heq => by
    have hidle := (hs.held t rfl).2
    rw [heq] at hidle
    exact absurd hfree (by rw [show indexOf h.mem l = -1 from hidle]; decide)
  obtain ⟨hw, hcall⟩ := meltLeft_wrote (Wrote.refl _ h.mem) hs.shape.apart ht (hleft ▸ hl) (hleft ▸ htl) hright
  rw [hleft] at hw hcall
  obtain ⟨hprev, hnext⟩ := hs.links_mem hl
  have hw' : Wrote _ h.mem (removeTag { h with mem := (meltLeft h.mem t).1 } l).mem _ :=
    removeTag_wrote hw hs.shape.apart hl (by rwa [join_same _ (by decide) (by decide) (by decide)])
      (by rwa [join_same _ (by decide) (by decide) (by decide)])
  have hpages := removeTag_freePages (h := { h with mem := (meltLeft h.mem t).1 }) hw hl
  rw [join_idx] at hpages
  obtain ⟨chain', hsound⟩ := hs.joinLeft (l := l) (fun heq => by
    rw [show indexOf h.mem l = -1 from heq] at hfree
    exact absurd hfree (by decide))
  refine ⟨removeTag { h with mem := (meltLeft h.mem t).1 } l, chain', ?_, ?_, ?_, rfl, rfl⟩
  · have hne : l ≠ NULL := hrun.ne_null (List.mem_append_right xs List.mem_cons_self)
    simp only [meltLeftBody, hleft, hcall]
    rw [if_pos ⟨hne, hfree⟩]
  · rw [← hpages] at hsound
    refine hsound.read fun u hu f => hw'.fields u ?_ f
    exact (allTags_behind _ _ _ _ _ _ _ _).mpr (Or.inr hu)
  · rw [blocks_middle _ (xs ++ l :: t :: ys)]
    exact hs.touched hw'

end Steps

end MetalNes.Liballoc
