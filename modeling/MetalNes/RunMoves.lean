import MetalNes.TagMoves

namespace MetalNes.Liballoc

open PageChunks (NULL)
open PageRuns (Block)
open Segments Tilings

section Members

variable (F : Fields) {t n u : U32} {v : U32} {f : Field}

theorem linkNewTag_realSize (hne : t ≠ n) : F.linkNewTag t n v u .realSize =
    if u = t then F t .realSize - v else if u = n then v else F u .realSize := by
  simp [Fields.linkNewTag, hne]

theorem linkNewTag_splitRight (hne : t ≠ n) : F.linkNewTag t n v u .splitRight =
    if u = t then n else if u = n then F t .splitRight else F u .splitRight := by
  simp [Fields.linkNewTag, hne]

theorem linkNewTag_splitLeft (hu : u ≠ NULL) : F.linkNewTag t n v u .splitLeft =
    if u = F t .splitRight then n else if u = n then t else F u .splitLeft := by
  simp only [Fields.linkNewTag, Fields.set_apply, Fields.setBehind_apply]
  grind

theorem linkNewTag_magic : F.linkNewTag t n v u .magic = if u = n then LIBALLOC_MAGIC else F u .magic := by
  simp [Fields.linkNewTag]

theorem linkNewTag_links : F.linkNewTag t n v n .next = NULL ∧ F.linkNewTag t n v n .prev = NULL := by
  simp [Fields.linkNewTag]

theorem linkNewTag_same (hne : u ≠ n) (hsize : f ≠ .realSize) (hright : f ≠ .splitRight) (hleft : f ≠ .splitLeft) :
    F.linkNewTag t n v u f = F u f := by
  simp [Fields.linkNewTag, hne, hsize, hright, hleft]

/-- A tag made behind t, before insert_tag gives it an index. -/
def Fields.splitOff (F : Fields) (t n v : U32) : Fields := (F.linkNewTag t n v).set n .index (-1)

theorem splitOff_linked (hf : f ≠ .index) : F.splitOff t n v u f = F.linkNewTag t n v u f := by
  rw [Fields.splitOff, Fields.set_apply, if_neg fun hboth => hf hboth.2]

theorem splitOff_same (hne : u ≠ n) (hsize : f ≠ .realSize) (hright : f ≠ .splitRight) (hleft : f ≠ .splitLeft) :
    F.splitOff t n v u f = F u f := by
  rw [Fields.splitOff, Fields.set_apply, if_neg fun hboth => hne hboth.1, linkNewTag_same F hne hsize hright hleft]

theorem splitOff_idx (hne : u ≠ n) : (F.splitOff t n v).idx u = F.idx u := by
  rw [Fields.idx, splitOff_same F hne (by decide) (by decide) (by decide)]
  rfl

theorem splitOff_new : (F.splitOff t n v).idx n = -1 ∧ F.splitOff t n v n .next = NULL ∧
    F.splitOff t n v n .prev = NULL := by
  have hindex : F.splitOff t n v n .index = -1 := by rw [Fields.splitOff, Fields.set_apply, if_pos ⟨rfl, rfl⟩]
  rw [Fields.idx, hindex, splitOff_linked F (by decide), splitOff_linked F (by decide)]
  exact ⟨by decide, linkNewTag_links F⟩

theorem splitOff_len (hne : t ≠ n) : (F.splitOff t n v).len u =
    (if u = t then F t .realSize - v else if u = n then v else F u .realSize).toNat := by
  rw [Fields.len, splitOff_linked F (by decide), linkNewTag_realSize F hne]

end Members

section Shape

variable {F : Fields} {freePages : Int → U32} {runs pre post : List PageRun} {chain : Int → List U32}
variable {b : Block} {xs ys : List U32} {t n : U32} {i : Int}

theorem Shape.remove (h : Shape F freePages runs chain) (h0 : 0 ≤ i) (h32 : i < 32) (hc : chain i = xs ++ t :: ys) :
    Shape (F.removeTag t) (if freePages i = t then Function.update freePages i (F t .next) else freePages) runs
      (Function.update chain i (xs ++ ys)) where
  run_shape r hr := (h.run_shape r hr).congr
    (fun u _ => by rw [Fields.len, removeTag_same F (by decide) (by decide) (by decide)]; rfl)
    (fun u _ => removeTag_same F (by decide) (by decide) (by decide))
    (fun u _ => removeTag_same F (by decide) (by decide) (by decide))
    (fun u _ => removeTag_same F (by decide) (by decide) (by decide))
  disjoint := h.disjoint
  buckets := h.buckets.remove h0 h32 hc h.ne_null

theorem Shape.insert (h : Shape F freePages runs chain) (h0 : 0 ≤ i) (h32 : i < 32) (ht : t ∈ allTags runs)
    (hused : F.idx t = -1) : Shape (F.insertTag t (freePages i) i) (Function.update freePages i t) runs
      (Function.update chain i (t :: chain i)) where
  run_shape r hr := (h.run_shape r hr).congr
    (fun u _ => by rw [Fields.len, insertTag_same F (by decide) (by decide) (by decide)]; rfl)
    (fun u _ => insertTag_same F (by decide) (by decide) (by decide))
    (fun u _ => insertTag_same F (by decide) (by decide) (by decide))
    (fun u _ => insertTag_same F (by decide) (by decide) (by decide))
  disjoint := h.disjoint
  buckets := h.buckets.insert h.ne_null h0 h32 ht hused

theorem Shape.join (h : Shape F freePages (pre ++ ⟨b, xs ++ t :: n :: ys⟩ :: post) chain) (hused : F.idx n = -1) :
    Shape (F.join t n) freePages (pre ++ ⟨b, xs ++ t :: ys⟩ :: post) chain := by
  have hrun := h.run_shape _ (List.mem_append_right pre List.mem_cons_self)
  have ht : t ∈ xs ++ t :: n :: ys := List.mem_append_right xs List.mem_cons_self
  have hn : n ∈ xs ++ t :: n :: ys := List.mem_append_right xs (List.mem_cons_of_mem t List.mem_cons_self)
  obtain ⟨hne, hnot, htnot⟩ := nodup_neighbours hrun.links.nodup
  have hsub : ∀ a ∈ xs ++ t :: ys, a ∈ xs ++ t :: n :: ys := fun a ha =>
    mem_inserted_behind.mpr (Or.inr ha)
  have hrest : ∀ a ∈ xs ++ ys, a ≠ t := fun a ha heq => htnot (heq ▸ ha)
  have hmember : ∀ {a f}, f ≠ .realSize → f ≠ .splitRight → f ≠ .splitLeft → F.join t n a f = F a f :=
    fun hsize hright hleft => join_same F hsize hright hleft
  refine h.replace (r := ⟨b, xs ++ t :: n :: ys⟩) (fun r' hr' a ha => ?_)
    (hrun.merge ?_ (fun a ha => ?_) ?_ (fun a ha => ?_) (fun a ha => ?_) fun a _ => ?_) ?_
  · have hat : a ≠ t := fun heq => h.other_run ht hr' (heq ▸ ha)
    have ha0 := (h.run_shape r' (mem_inserted.mpr (Or.inr hr'))).ne_null ha
    have hbehind : a ≠ F n .splitRight := by
      rintro heq
      rcases hrun.links.next_mem hn with hmem | hstop
      · exact h.other_run (heq ▸ hmem) hr' ha
      · exact ha0 (heq.trans hstop)
    rw [Fields.len, join_realSize, if_neg hat, join_splitRight F hne, if_neg hat, join_splitLeft F hne ha0,
      if_neg hbehind, hmember (by decide) (by decide) (by decide)]
    exact ⟨rfl, rfl, rfl, rfl⟩
  · have hstart := hrun.tiles.start_of_merge
    have hin := hrun.inside hn
    have hfits := hrun.fits
    have ht0 := hrun.ne_null ht
    rw [Fields.len, join_realSize, if_pos rfl]
    simp only [Fields.len, NULL] at *
    bv_omega
  · rw [Fields.len, join_realSize, if_neg (hrest a ha)]
    rfl
  · rw [join_splitRight F hne, if_pos rfl]
  · rw [join_splitRight F hne, if_neg (hrest a ha)]
  · rw [join_splitLeft F hne (hrun.ne_null (hsub a ha))]
  · exact hmember (by decide) (by decide) (by decide)
  · have hidx : ∀ a, (F.join t n).idx a = F.idx a := fun a => by
      rw [Fields.idx, hmember (by decide) (by decide) (by decide)]
      rfl
    refine h.buckets.retag (fun a ha hfree => ?_) (fun a _ _ => ⟨hidx a, ?_, ?_⟩) fun a ha hu => ?_
    · have han : a ≠ n := fun heq => hfree (heq ▸ hused)
      exact ((allTags_behind _ _ _ _ _ _ _ _).mp ha).resolve_left han
    · exact hmember (by decide) (by decide) (by decide)
    · exact hmember (by decide) (by decide) (by decide)
    · have hold : a ∈ allTags (pre ++ ⟨b, xs ++ t :: n :: ys⟩ :: post) :=
        (allTags_behind _ _ _ _ _ _ _ _).mpr (Or.inr ha)
      have hidle := hu.resolve_left (not_not_intro hold)
      rw [hidx, hmember (by decide) (by decide) (by decide), hmember (by decide) (by decide) (by decide)]
      exact ⟨hidle, h.buckets.alone a hold hidle⟩

section Split

variable {v : U32} (h : Shape F freePages (pre ++ ⟨b, xs ++ t :: ys⟩ :: post) chain)
variable (hn : n.toNat + v.toNat = t.toNat + F.len t) (hbig : 32 ≤ v.toNat) (hroom : v.toNat + 32 ≤ F.len t)

include h hn hbig hroom

theorem Shape.split_fresh : n ∉ allTags (pre ++ ⟨b, xs ++ t :: ys⟩ :: post) := by
  have hrun := h.run_shape _ List.mem_append_cons_self
  have ht : t ∈ xs ++ t :: ys := List.mem_append_cons_self
  have hin : b.addr.toNat ≤ t.toNat ∧ t.toNat + F.len t ≤ b.addr.toNat + 4096 * b.pages.toNat := hrun.inside ht
  intro hmem
  rcases (allTags_middle _ _ _ _).mp hmem with hmem | hmem
  · have hapart := hrun.apart ht hmem (by rintro rfl; omega)
    omega
  · obtain ⟨r', hr', hmem⟩ := mem_allTags.mp hmem
    have hext : n.toNat ∈ b.extent := ⟨by omega, by omega⟩
    exact Set.disjoint_left.mp (h.others_disjoint hr') hext
      ((h.run_shape r' (mem_inserted.mpr (Or.inr hr'))).mem_extent hmem)

theorem Shape.split_ne {a : U32} (ha : a ∈ allTags (pre ++ ⟨b, xs ++ t :: ys⟩ :: post)) : a ≠ n :=
  fun heq => h.split_fresh hn hbig hroom (heq ▸ ha)

theorem Shape.split_ne_here {a : U32} (ha : a ∈ xs ++ t :: ys) : a ≠ n :=
  h.split_ne hn hbig hroom ((allTags_middle _ _ _ _).mpr (Or.inl ha))

theorem Shape.split_other {r : PageRun} (hr : r ∈ pre ++ post) {a : U32} (ha : a ∈ r.tags) :
    (F.splitOff t n v).len a = F.len a ∧ F.splitOff t n v a .splitRight = F a .splitRight ∧
      F.splitOff t n v a .splitLeft = F a .splitLeft ∧ F.splitOff t n v a .magic = F a .magic := by
  have ht : t ∈ xs ++ t :: ys := List.mem_append_cons_self
  have hrun := h.run_shape _ List.mem_append_cons_self
  have han := h.split_ne hn hbig hroom ((allTags_middle _ _ _ _).mpr (Or.inr (mem_allTags.mpr ⟨r, hr, ha⟩)))
  have hat : a ≠ t := fun heq => h.other_run ht hr (heq ▸ ha)
  have ha0 := (h.run_shape r (mem_inserted.mpr (Or.inr hr))).ne_null ha
  have hne := h.split_ne_here hn hbig hroom ht
  have hbehind : a ≠ F t .splitRight := by
    rintro heq
    rcases hrun.links.next_mem ht with hmem | hstop
    · exact h.other_run (heq ▸ hmem) hr ha
    · exact ha0 (heq.trans hstop)
  rw [splitOff_len F hne, if_neg hat, if_neg han, splitOff_linked F (by decide), linkNewTag_splitRight F hne,
    if_neg hat, if_neg han, splitOff_linked F (by decide), linkNewTag_splitLeft F ha0, if_neg hbehind, if_neg han,
    splitOff_linked F (by decide), linkNewTag_magic, if_neg han]
  exact ⟨rfl, rfl, rfl, rfl⟩

theorem Shape.split_run : RunShape (F.splitOff t n v) ⟨b, xs ++ t :: n :: ys⟩ := by
  have hrun := h.run_shape _ List.mem_append_cons_self
  have ht : t ∈ xs ++ t :: ys := List.mem_append_cons_self
  have hmem : ∀ a ∈ xs ++ t :: ys, a ≠ n := fun a ha => h.split_ne_here hn hbig hroom ha
  have hne := hmem t ht
  have hn0 : n ≠ NULL := by
    rintro rfl
    have hnull : NULL.toNat = 0 := rfl
    omega
  have hrest : ∀ a ∈ xs ++ ys, a ≠ t ∧ a ≠ n := fun a ha =>
    ⟨fun heq => (List.nodup_middle.mp hrun.links.nodup).notMem (heq ▸ ha), hmem a (mem_inserted.mpr (Or.inr ha))⟩
  have hshrunk : (F t .realSize - v).toNat = F.len t - v.toNat := by
    simp only [Fields.len] at *
    bv_omega
  have hlent : (F.splitOff t n v).len t = F.len t - v.toNat := by rw [splitOff_len F hne, if_pos rfl, hshrunk]
  have hlenn : (F.splitOff t n v).len n = v.toNat := by rw [splitOff_len F hne, if_neg hne.symm, if_pos rfl]
  refine hrun.split hn0 (by omega) (by omega) (by omega) (fun a ha => ?_) ⟨?_, ?_⟩ ?_ (fun a ha => ?_)
    (fun a ha => ?_) fun a ha => ?_
  · rw [splitOff_len F hne, if_neg (hrest a ha).1, if_neg (hrest a ha).2]
    rfl
  · rw [splitOff_linked F (by decide), linkNewTag_splitRight F hne, if_neg hne.symm, if_pos rfl]
  · have hnot : n ≠ F t .splitRight := by
      rintro heq
      rcases hrun.links.next_mem ht with hright | hstop
      · exact hmem n (heq ▸ hright) rfl
      · exact hn0 (heq.trans hstop)
    rw [splitOff_linked F (by decide), linkNewTag_splitLeft F hn0, if_neg hnot, if_pos rfl]
  · rw [splitOff_linked F (by decide), linkNewTag_splitRight F hne, if_pos rfl]
  · rw [splitOff_linked F (by decide), linkNewTag_splitRight F hne, if_neg (hrest a ha).1, if_neg (hrest a ha).2]
  · rw [splitOff_linked F (by decide), linkNewTag_splitLeft F (hrun.ne_null ha), if_neg (hmem a ha)]
  · rw [splitOff_linked F (by decide), linkNewTag_magic]
    by_cases han : a = n
    · rw [if_pos han]
    · rw [if_neg han]
      exact hrun.magic a ((mem_inserted_behind.mp ha).resolve_left han)

theorem Shape.split_buckets :
    Buckets (F.splitOff t n v) freePages (allTags (pre ++ ⟨b, xs ++ t :: n :: ys⟩ :: post)) chain := by
  have hold : ∀ {a}, a ∈ allTags (pre ++ ⟨b, xs ++ t :: ys⟩ :: post) → a ≠ n := h.split_ne hn hbig hroom
  refine h.buckets.retag (fun a ha _ => (allTags_behind _ _ _ _ _ _ _ _).mpr (Or.inr ha))
    (fun a ha _ => ⟨splitOff_idx F (hold ha), ?_, ?_⟩) fun a ha hu => ?_
  · exact splitOff_same F (hold ha) (by decide) (by decide) (by decide)
  · exact splitOff_same F (hold ha) (by decide) (by decide) (by decide)
  · rcases (allTags_behind _ _ _ _ _ _ _ _).mp ha with rfl | holdmem
    · exact splitOff_new F
    · have hidle := hu.resolve_left (not_not_intro holdmem)
      rw [splitOff_idx F (hold holdmem), splitOff_same F (hold holdmem) (by decide) (by decide) (by decide),
        splitOff_same F (hold holdmem) (by decide) (by decide) (by decide)]
      exact ⟨hidle, h.buckets.alone a holdmem hidle⟩

theorem Shape.split : Shape (F.splitOff t n v) freePages (pre ++ ⟨b, xs ++ t :: n :: ys⟩ :: post) chain :=
  h.replace (r := ⟨b, xs ++ t :: ys⟩) (fun _ hr _ ha => h.split_other hn hbig hroom hr ha)
    (h.split_run hn hbig hroom) (h.split_buckets hn hbig hroom)

end Split

theorem Shape.fresh (h : Shape F freePages runs chain) (hb : ∀ r ∈ runs, Disjoint b.extent r.block.extent)
    (hne : b.addr ≠ NULL) (hpages : 16 ≤ b.pages.toNat) (hfits : b.addr.toNat + 4096 * b.pages.toNat < 2 ^ 32)
    (size : U32) : Shape (F.freshTag b.addr size b.pages) freePages (⟨b, [b.addr]⟩ :: runs) chain ∧
      b.addr ∉ allTags runs := by
  have hext : b.addr.toNat ∈ b.extent := ⟨Nat.le_refl _, by omega⟩
  have hfresh : b.addr ∉ allTags runs := by
    intro hmem
    obtain ⟨r, hr, hmem⟩ := mem_allTags.mp hmem
    exact Set.disjoint_left.mp (hb r hr) hext ((h.run_shape r hr).mem_extent hmem)
  have hsame : ∀ a ∈ allTags runs, ∀ f, F.freshTag b.addr size b.pages a f = F a f := by
    intro a ha f
    have hab : a ≠ b.addr := fun heq => hfresh (heq ▸ ha)
    simp [Fields.freshTag, hab]
  refine ⟨⟨fun r hr => ?_, ?_, ?_⟩, hfresh⟩
  · rcases List.mem_cons.mp hr with rfl | hr
    · refine RunShape.fresh hne ?_ hpages ?_ ?_ hfits
      · simp only [Fields.len, Fields.freshTag, Fields.set_apply]
        simp only [reduceCtorEq, and_false, if_false, and_self, if_true, pageSize]
        have hpos : 0 < b.addr.toNat := by
          simp only [NULL] at hne
          bv_omega
        bv_omega
      · simp [Fields.freshTag]
      · simp [Fields.freshTag]
    · have hin : ∀ a ∈ r.tags, a ∈ allTags runs := fun a ha => mem_allTags.mpr ⟨r, hr, ha⟩
      refine (h.run_shape r hr).congr (fun a ha => ?_) (fun a ha => hsame a (hin a ha) _)
        (fun a ha => hsame a (hin a ha) _) fun a ha => hsame a (hin a ha) _
      rw [Fields.len, hsame a (hin a ha)]
      rfl
  · exact List.pairwise_cons.mpr ⟨fun c hc => by
      obtain ⟨r, hr, rfl⟩ := List.mem_map.mp hc
      exact hb r hr, h.disjoint⟩
  · have hidx : ∀ a ∈ allTags runs, (F.freshTag b.addr size b.pages).idx a = F.idx a := fun a ha => by
      rw [Fields.idx, hsame a ha]
      rfl
    refine h.buckets.retag (fun a ha _ => ?_) (fun a ha _ => ⟨hidx a ha, hsame a ha _, hsame a ha _⟩) fun a ha hu => ?_
    · exact List.mem_append_right _ ha
    · by_cases hab : a = b.addr
      · rw [hab, Fields.idx]
        simp [Fields.freshTag]
      · have hold : a ∈ allTags runs :=
          (List.mem_append.mp ha).resolve_left fun hmem => hab (List.mem_singleton.mp hmem)
        have hidle := hu.resolve_left (not_not_intro hold)
        rw [hidx a hold, hsame a hold, hsame a hold]
        exact ⟨hidle, h.buckets.alone a hold hidle⟩

/-- A run whose only tag is in use is given up. -/
theorem Shape.giveBack (h : Shape F freePages (pre ++ ⟨b, [t]⟩ :: post) chain) (hused : F.idx t = -1) :
    Shape F freePages (pre ++ post) chain where
  run_shape r hr := h.run_shape r (mem_inserted.mpr (Or.inr hr))
  disjoint := by
    refine h.disjoint.sublist ?_
    rw [List.map_append, List.map_append]
    exact List.Sublist.append_left (List.sublist_cons_self _ _) _
  buckets := by
    have hsub : ∀ a ∈ allTags (pre ++ post), a ∈ allTags (pre ++ ⟨b, [t]⟩ :: post) := fun a ha =>
      (allTags_middle _ _ _ _).mpr (Or.inr ha)
    refine h.buckets.retag (fun a ha hfree => ?_) (fun _ _ _ => ⟨rfl, rfl, rfl⟩) fun a ha hu => ?_
    · rcases (allTags_middle _ _ _ _).mp ha with ha | ha
      · obtain rfl := List.mem_singleton.mp ha
        exact absurd hused hfree
      · exact ha
    · have hidle := hu.resolve_left (not_not_intro (hsub a ha))
      exact ⟨hidle, h.buckets.alone a (hsub a ha) hidle⟩

end Shape

end MetalNes.Liballoc
