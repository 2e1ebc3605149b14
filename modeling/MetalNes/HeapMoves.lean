import MetalNes.HeapSound
import MetalNes.SizeClasses

namespace MetalNes.Liballoc

open PageChunks (NULL)
open PageRuns (Block)
open Segments Tilings

section Moves

variable {F : Fields} {freePages : Int → U32} {completePages : Int → Int} {runs pre post : List PageRun}
variable {chain : Int → List U32} {live before after : List Object} {o : Object}
variable {b : Block} {xs ys : List U32} {t l r n : U32} {i : Int}

/-- An object is given back: its tag is in hand. -/
theorem Sound.grab (h : Sound F freePages completePages runs chain (before ++ o :: after) none) :
    ∃ t ∈ allTags runs, F.idx t = -1 ∧ o = ⟨t + sizeofTag, F t .size⟩ ∧
      Sound F freePages completePages runs chain (before ++ after) (some t) := by
  obtain ⟨t, ht, -, hidle, rfl⟩ := (h.owned o).mp (List.mem_append_right before List.mem_cons_self)
  have hnodup := List.nodup_middle.mp h.distinct
  refine ⟨t, ht, hidle, rfl, h.shape, h.graded, h.coalesced, h.counted, h.bounded,
    fun u hu _ hused => h.room u hu (Option.some_ne_none u) hused, fun o' => ?_, hnodup.of_cons, ?_⟩
  · have hmem : o' ∈ before ++ after ↔ o' ∈ before ++ ⟨t + sizeofTag, F t .size⟩ :: after ∧
        o' ≠ ⟨t + sizeofTag, F t .size⟩ := by
      constructor
      · intro ho
        refine ⟨?_, fun heq => hnodup.notMem (heq ▸ ho)⟩
        exact mem_inserted.mpr (Or.inr ho)
      · rintro ⟨ho, hne⟩
        exact (mem_inserted.mp ho).resolve_left hne
    rw [hmem, h.owned]
    constructor
    · rintro ⟨⟨u, hu, -, hused, rfl⟩, hne⟩
      refine ⟨u, hu, fun heq => hne ?_, hused, rfl⟩
      rw [Option.some.inj heq]
    · rintro ⟨u, hu, hne, hused, rfl⟩
      refine ⟨⟨u, hu, Option.some_ne_none u, hused, rfl⟩, fun heq => hne ?_⟩
      rw [(BitVec.add_left_inj _).mp (Object.mk.inj heq).1]
  · rintro u ⟨⟩
    exact ⟨ht, hidle⟩

theorem Sound.give (h : Sound F freePages completePages runs chain live (some t))
    (hroom : 32 + (F t .size).toNat ≤ F.len t) :
    Sound F freePages completePages runs chain (⟨t + sizeofTag, F t .size⟩ :: live) none := by
  obtain ⟨ht, hidle⟩ := h.held t rfl
  refine ⟨h.shape, h.graded, h.coalesced, h.counted, h.bounded, fun u hu _ hused => ?_, fun o => ?_, ?_, not_held⟩
  · by_cases hut : u = t
    · rw [hut]
      exact hroom
    · exact h.room u hu (fun heq => hut (Option.some.inj heq)) hused
  · rw [List.mem_cons, h.owned]
    constructor
    · rintro (rfl | ⟨u, hu, -, hused, rfl⟩)
      · exact ⟨t, ht, Option.some_ne_none t, hidle, rfl⟩
      · exact ⟨u, hu, Option.some_ne_none u, hused, rfl⟩
    · rintro ⟨u, hu, -, hused, rfl⟩
      by_cases hut : u = t
      · exact Or.inl (by rw [hut])
      · exact Or.inr ⟨u, hu, fun heq => hut (Option.some.inj heq), hused, rfl⟩
  · refine List.nodup_cons.mpr ⟨fun hmem => ?_, h.distinct⟩
    obtain ⟨u, -, hne, -, heq⟩ := (h.owned _).mp hmem
    exact hne (congrArg some ((BitVec.add_left_inj _).mp (Object.mk.inj heq).1).symm)

theorem Sound.chain_of_free {hand : Option U32} (h : Sound F freePages completePages runs chain live hand)
    (ht : t ∈ allTags runs) (hfree : F.idx t ≠ -1) : 0 ≤ F.idx t ∧ F.idx t < 32 ∧ t ∈ chain (F.idx t) := by
  obtain ⟨h0, h32⟩ := (h.shape.buckets.idx_cases t ht).resolve_left hfree
  exact ⟨h0, h32, (h.shape.buckets.mem_iff _ h0 h32 t).mpr ⟨ht, rfl⟩⟩

theorem join_idx : (F.join l r).idx t = F.idx t := by
  rw [Fields.idx, join_same F (by decide) (by decide) (by decide)]
  rfl

theorem Sound.joinLeft
    (h : Sound F freePages completePages (pre ++ ⟨b, xs ++ l :: t :: ys⟩ :: post) chain live (some t))
    (hfree : F.idx l ≠ -1) : ∃ chain', Sound ((F.join l t).removeTag l)
      (if freePages (F.idx l) = l then Function.update freePages (F.idx l) (F.join l t l .next) else freePages)
      completePages (pre ++ ⟨b, xs ++ l :: ys⟩ :: post) chain' live (some l) := by
  have hl : l ∈ allTags (pre ++ ⟨b, xs ++ l :: t :: ys⟩ :: post) :=
    (allTags_middle _ _ _ _).mpr (Or.inl (List.mem_append_right xs List.mem_cons_self))
  obtain ⟨h0, h32, hchain⟩ := h.chain_of_free hl hfree
  obtain ⟨as, bs, hc⟩ := List.append_of_mem hchain
  have hshape := (h.shape.join (h.held t rfl).2).remove h0 h32 hc
  refine ⟨_, h.joined (Or.inr rfl) (Or.inr hfree) (Or.inl rfl) hshape ?_ fun u hu _ => ⟨?_, ?_, ?_⟩⟩
  · rw [removeTag_idx, if_pos rfl]
  · rw [removeTag_idx, if_neg hu, join_idx]
  · rw [removeTag_same _ (by decide) (by decide) (by decide), join_realSize, if_neg hu]
  · rw [removeTag_same _ (by decide) (by decide) (by decide), join_same F (by decide) (by decide) (by decide)]

theorem Sound.joinRight
    (h : Sound F freePages completePages (pre ++ ⟨b, xs ++ t :: r :: ys⟩ :: post) chain live (some t))
    (hfree : F.idx r ≠ -1) : ∃ chain', Sound ((F.removeTag r).join t r)
      (if freePages (F.idx r) = r then Function.update freePages (F.idx r) (F r .next) else freePages)
      completePages (pre ++ ⟨b, xs ++ t :: ys⟩ :: post) chain' live (some t) := by
  have hr : r ∈ allTags (pre ++ ⟨b, xs ++ t :: r :: ys⟩ :: post) :=
    (allTags_middle _ _ _ _).mpr (Or.inl (List.mem_append_right xs (List.mem_cons_of_mem t List.mem_cons_self)))
  obtain ⟨h0, h32, hchain⟩ := h.chain_of_free hr hfree
  obtain ⟨as, bs, hc⟩ := List.append_of_mem hchain
  have hidle : (F.removeTag r).idx r = -1 := by rw [removeTag_idx, if_pos rfl]
  have hrt : r ≠ t := fun heq => hfree (heq ▸ (h.held t rfl).2)
  have hshape := (h.shape.remove h0 h32 hc).join hidle
  refine ⟨_, h.joined (Or.inl rfl) (Or.inl rfl) (Or.inr hfree) hshape ?_ fun u hu hur => ⟨?_, ?_, ?_⟩⟩
  · rw [join_idx, removeTag_idx, if_neg hrt.symm, (h.held t rfl).2]
  · rw [join_idx, removeTag_idx, if_neg hur]
  · rw [join_realSize, if_neg hu, removeTag_same _ (by decide) (by decide) (by decide)]
  · rw [join_same _ (by decide) (by decide) (by decide), removeTag_same _ (by decide) (by decide) (by decide)]

/-- The tags at both sides of a place in a run are in use. -/
def Fields.UsedAround (F : Fields) (xs ys : List U32) : Prop :=
  (∀ l ∈ xs.getLast?, F.idx l = -1) ∧ ∀ r ∈ ys.head?, F.idx r = -1

theorem Sound.reindexed {F' : Fields} {freePages' : Int → U32} {completePages' : Int → Int} {chain' : Int → List U32}
    {hand hand' : Option U32}
    (h : Sound F freePages completePages (pre ++ ⟨b, xs ++ t :: ys⟩ :: post) chain live hand)
    (hshape : Shape F' freePages' (pre ++ ⟨b, xs ++ t :: ys⟩ :: post) chain')
    (hidx : ∀ u, u ≠ t → F'.idx u = F.idx u)
    (hsame : ∀ u, F' u .realSize = F u .realSize ∧ F' u .size = F u .size)
    (hgrade : F'.idx t ≠ -1 → F'.idx t = bucketOf (F t .realSize - sizeofTag) ∧ F.UsedAround xs ys)
    (hcount : ∀ i, 0 ≤ i → i < 32 → completePages' i + (if wholeAt F i ⟨b, xs ++ t :: ys⟩ then 1 else 0) =
      completePages i + (if wholeAt F' i ⟨b, xs ++ t :: ys⟩ then 1 else 0) ∧ completePages' i ≤ MAXCOMPLETE)
    (hhand : ∀ u, u ≠ t → some u ≠ hand ∧ some u ≠ hand') (ht : some t = hand ∨ F.idx t ≠ -1)
    (ht' : some t = hand' ∨ F'.idx t ≠ -1) (hheld : ∀ u, hand' = some u → u = t ∧ F'.idx t = -1) :
    Sound F' freePages' completePages' (pre ++ ⟨b, xs ++ t :: ys⟩ :: post) chain' live hand' := by
  have hrun := h.shape.run_shape _ (List.mem_append_right pre List.mem_cons_self)
  have htmem : t ∈ xs ++ t :: ys := List.mem_append_right xs List.mem_cons_self
  have htnot : t ∉ xs ++ ys := (List.nodup_middle.mp hrun.links.nodup).notMem
  have hother : ∀ r ∈ pre ++ post, ∀ u ∈ r.tags, F'.idx u = F.idx u := fun r hr u hu =>
    hidx u fun heq => h.shape.other_run htmem hr (heq ▸ hu)
  have hout : ∀ u, F'.Out (pre ++ ⟨b, xs ++ t :: ys⟩ :: post) hand' u ↔
      F.Out (pre ++ ⟨b, xs ++ t :: ys⟩ :: post) hand u := by
    refine fun u => and_congr_right fun _ => ?_
    by_cases hut : u = t
    · rw [hut]
      exact iff_of_false (fun hu => ht'.elim hu.1 fun hfree => hfree hu.2)
        fun hu => ht.elim hu.1 fun hfree => hfree hu.2
    · rw [hidx u hut, and_iff_right (hhand u hut).1, and_iff_right (hhand u hut).2]
  have hobjects := h.same_objects hout fun u _ => hsame u
  refine ⟨hshape, fun u hu hfree => ?_, coalesced_replace h.coalesced hother ?_, fun i h0 h32 => ?_,
    fun i h0 h32 => (hcount i h0 h32).2, hobjects.1, hobjects.2, h.distinct, fun u hu => ?_⟩
  · rw [(hsame u).1]
    by_cases hut : u = t
    · rw [hut] at hfree ⊢
      exact (hgrade hfree).1
    · rw [hidx u hut] at hfree ⊢
      exact h.graded u hu hfree
  · obtain ⟨hxs, hys, -, -⟩ := separated_middle.mp (h.coalesced _ List.mem_append_cons_self)
    have hkeep : ∀ u ∈ xs ++ ys, F'.Free u → F.Free u := fun u hu => by
      rw [Fields.Free, hidx u fun heq => htnot (heq ▸ hu)]
      exact id
    refine separated_middle.mpr ⟨hxs.congr fun u hu => hkeep u (List.mem_append_left ys hu),
      hys.congr fun u hu => hkeep u (List.mem_append_right xs hu), ?_, ?_⟩
    · rintro l hl ⟨hlfree, htfree⟩
      exact hkeep l (List.mem_append_left ys (List.mem_of_mem_getLast? hl)) hlfree ((hgrade htfree).2.1 l hl)
    · rintro r hr ⟨htfree, hrfree⟩
      exact hkeep r (List.mem_append_right xs (List.mem_of_mem_head? hr)) hrfree ((hgrade htfree).2.2 r hr)
  · have hold := h.counted i h0 h32
    have hnew := (hcount i h0 h32).1
    rw [countP_middle (p := wholeAt F i) (q := wholeAt F i) fun _ _ => rfl] at hold
    rw [countP_middle (p := wholeAt F i) (q := wholeAt F' i) fun r hr => wholeAt_congr (hother r hr)]
    push_cast at hold ⊢
    omega
  · obtain ⟨rfl, hidle⟩ := hheld u hu
    exact ⟨(allTags_middle _ _ _ _).mpr (Or.inl htmem), hidle⟩

theorem wholeAt_middle {G : Fields} : wholeAt G i ⟨b, xs ++ t :: ys⟩ = decide ((xs = [] ∧ ys = []) ∧ G.idx t = i) := by
  cases xs with
  | nil =>
      cases ys with
      | nil => simp [wholeAt]
      | cons y rest => simp [wholeAt]
  | cons x rest => cases rest <;> simp [wholeAt]

theorem Sound.take (h : Sound F freePages completePages (pre ++ ⟨b, xs ++ t :: ys⟩ :: post) chain live none)
    (hfree : F.idx t ≠ -1) : (F.removeTag t).UsedAround xs ys ∧ ∃ chain', Sound (F.removeTag t)
      (if freePages (F.idx t) = t then Function.update freePages (F.idx t) (F t .next) else freePages)
      (if xs = [] ∧ ys = [] then Function.update completePages (F.idx t) (completePages (F.idx t) - 1)
        else completePages)
      (pre ++ ⟨b, xs ++ t :: ys⟩ :: post) chain' live (some t) := by
  have ht : t ∈ allTags (pre ++ ⟨b, xs ++ t :: ys⟩ :: post) :=
    (allTags_middle _ _ _ _).mpr (Or.inl (List.mem_append_right xs List.mem_cons_self))
  obtain ⟨h0, h32, hchain⟩ := h.chain_of_free ht hfree
  obtain ⟨as, bs, hc⟩ := List.append_of_mem hchain
  have hidle : (F.removeTag t).idx t = -1 := by rw [removeTag_idx, if_pos rfl]
  have hother : ∀ u, u ≠ t → (F.removeTag t).idx u = F.idx u := fun u hu => by rw [removeTag_idx, if_neg hu]
  refine ⟨?_, _, h.reindexed (h.shape.remove h0 h32 hc) hother (fun u => ⟨?_, ?_⟩) (fun hne => absurd hidle hne)
    (fun i hi0 hi32 => ?_) (fun u hu => ⟨Option.some_ne_none u, fun heq => hu (Option.some.inj heq)⟩) (Or.inr hfree)
    (Or.inl rfl) fun u hu => ⟨(Option.some.inj hu).symm, hidle⟩⟩
  · have hrun := h.shape.run_shape _ (List.mem_append_right pre List.mem_cons_self)
    have htnot : t ∉ xs ++ ys := (List.nodup_middle.mp hrun.links.nodup).notMem
    obtain ⟨-, -, hleft, hright⟩ :=
      separated_middle.mp (h.coalesced _ (List.mem_append_right pre List.mem_cons_self))
    constructor
    · intro l hl
      rw [hother l fun heq => htnot (heq ▸ List.mem_append_left ys (List.mem_of_mem_getLast? hl))]
      exact not_not.mp fun hne => hleft l hl ⟨hne, hfree⟩
    · intro r hr
      rw [hother r fun heq => htnot (heq ▸ List.mem_append_right xs (List.mem_of_mem_head? hr))]
      exact not_not.mp fun hne => hright r hr ⟨hfree, hne⟩
  · exact removeTag_same F (by decide) (by decide) (by decide)
  · exact removeTag_same F (by decide) (by decide) (by decide)
  · have hbound := h.bounded i hi0 hi32
    rw [wholeAt_middle, wholeAt_middle, hidle]
    by_cases hwhole : xs = [] ∧ ys = []
    · rw [if_pos hwhole]
      by_cases heq : F.idx t = i
      · rw [heq, Function.update_self]
        simp [hwhole]
        omega
      · rw [Function.update_of_ne (Ne.symm heq)]
        simp [hwhole, heq]
        omega
    · rw [if_neg hwhole]
      simp [hwhole, hbound]

theorem Sound.putBack (h : Sound F freePages completePages (pre ++ ⟨b, xs ++ t :: ys⟩ :: post) chain live (some t))
    (haround : F.UsedAround xs ys) (hi : bucketOf (F t .realSize - sizeofTag) = i)
    (hfull : xs = [] ∧ ys = [] → completePages i ≠ MAXCOMPLETE) : ∃ chain', Sound (F.insertTag t (freePages i) i)
      (Function.update freePages i t)
      (if xs = [] ∧ ys = [] then Function.update completePages i (completePages i + 1) else completePages)
      (pre ++ ⟨b, xs ++ t :: ys⟩ :: post) chain' live none := by
  obtain ⟨ht, hidle⟩ := h.held t rfl
  obtain ⟨h8, h32⟩ := hi ▸ bucketOf_range (F t .realSize - sizeofTag)
  have h0 : 0 ≤ i := by omega
  have hnew : (F.insertTag t (freePages i) i).idx t = i := by rw [insertTag_idx h0 h32, if_pos rfl]
  refine ⟨_, h.reindexed (h.shape.insert h0 h32 ht hidle) (fun u hu => ?_) (fun u => ⟨?_, ?_⟩)
    (fun _ => ⟨hnew.trans hi.symm, haround⟩) (fun j hj0 hj32 => ?_)
    (fun u hu => ⟨fun heq => hu (Option.some.inj heq), Option.some_ne_none u⟩) (Or.inl rfl) (Or.inr ?_)
    not_held⟩
  · rw [insertTag_idx h0 h32, if_neg hu]
  · exact insertTag_same F (by decide) (by decide) (by decide)
  · exact insertTag_same F (by decide) (by decide) (by decide)
  · have hbound := h.bounded j hj0 hj32
    rw [wholeAt_middle, wholeAt_middle, hnew, hidle]
    by_cases hwhole : xs = [] ∧ ys = []
    · have hroom := hfull hwhole
      rw [if_pos hwhole]
      by_cases heq : i = j
      · rw [heq] at hroom ⊢
        rw [Function.update_self]
        simp [hwhole]
        omega
      · rw [Function.update_of_ne (Ne.symm heq)]
        simp [hwhole, heq]
        omega
    · rw [if_neg hwhole]
      simp [hwhole, hbound]
  · rw [hnew]
    omega

theorem Sound.fresh (h : Sound F freePages completePages runs chain live none)
    (hb : ∀ r ∈ runs, Disjoint b.extent r.block.extent) (hne : b.addr ≠ NULL) (hpages : 16 ≤ b.pages.toNat)
    (hfits : b.addr.toNat + 4096 * b.pages.toNat < 2 ^ 32) (size : U32) :
    Sound (F.freshTag b.addr size b.pages) freePages completePages (⟨b, [b.addr]⟩ :: runs) chain live
      (some b.addr) := by
  obtain ⟨hshape, hfresh⟩ := h.shape.fresh hb hne hpages hfits size
  have hold : ∀ u ∈ allTags runs, u ≠ b.addr := fun u hu heq => hfresh (heq ▸ hu)
  have hsame : ∀ u, u ≠ b.addr → ∀ f, F.freshTag b.addr size b.pages u f = F u f := fun u hu f => by
    simp [Fields.freshTag, hu]
  have hidx : ∀ u, u ≠ b.addr → (F.freshTag b.addr size b.pages).idx u = F.idx u := fun u hu => by
    rw [Fields.idx, hsame u hu]
    rfl
  have hidle : (F.freshTag b.addr size b.pages).idx b.addr = -1 := by
    simp [Fields.idx, Fields.freshTag]
  have hmem : ∀ u, u ≠ b.addr → (u ∈ allTags (⟨b, [b.addr]⟩ :: runs) ↔ u ∈ allTags runs) := fun u hu => by
    simp [allTags, hu]
  have hout : ∀ u, (F.freshTag b.addr size b.pages).Out (⟨b, [b.addr]⟩ :: runs) (some b.addr) u ↔
      F.Out runs none u := by
    intro u
    constructor
    · rintro ⟨hu, hne, hused⟩
      have hub : u ≠ b.addr := fun heq => hne (congrArg some heq)
      exact ⟨(hmem u hub).mp hu, Option.some_ne_none u, (hidx u hub).symm.trans hused⟩
    · rintro ⟨hu, -, hused⟩
      have hub := hold u hu
      exact ⟨(hmem u hub).mpr hu, fun heq => hub (Option.some.inj heq), (hidx u hub).trans hused⟩
  have hobjects := h.same_objects hout fun u hu => ⟨hsame u (hold u hu.1) _, hsame u (hold u hu.1) _⟩
  refine ⟨hshape, fun u hu hfree => ?_, fun r hr => ?_, fun i h0 h32 => ?_, h.bounded, hobjects.1, hobjects.2,
    h.distinct, ?_⟩
  · have hub : u ≠ b.addr := fun heq => hfree (heq ▸ hidle)
    rw [hidx u hub] at hfree ⊢
    rw [hsame u hub]
    exact h.graded u ((hmem u hub).mp hu) hfree
  · rcases List.mem_cons.mp hr with rfl | hr
    · exact List.isChain_singleton _
    · refine (h.coalesced r hr).congr fun u hu => ?_
      rw [Fields.Free, hidx u (hold u (mem_allTags.mpr ⟨r, hr, hu⟩))]
      exact id
  · have hnot := wholeAt_single (b := b) h0 hidle
    rw [h.counted i h0 h32, List.countP_cons, hnot, countP_wholeAt_congr fun u hu => hidx u (hold u hu)]
    simp
  · rintro u ⟨⟩
    exact ⟨List.mem_append_left _ (List.mem_singleton_self b.addr), hidle⟩

theorem Sound.giveBack (h : Sound F freePages completePages (pre ++ ⟨b, [t]⟩ :: post) chain live (some t)) :
    Sound F freePages completePages (pre ++ post) chain live none := by
  obtain ⟨-, hidle⟩ := h.held t rfl
  have hmem : ∀ u, u ∈ allTags (pre ++ post) ↔ u ∈ allTags (pre ++ ⟨b, [t]⟩ :: post) ∧ u ≠ t := by
    intro u
    rw [allTags_middle, List.mem_singleton]
    constructor
    · intro hu
      obtain ⟨r, hr, hur⟩ := mem_allTags.mp hu
      exact ⟨Or.inr hu, fun heq => h.shape.other_run (List.mem_singleton_self t) hr (heq ▸ hur)⟩
    · rintro ⟨hu | hu, hne⟩
      · exact absurd hu hne
      · exact hu
  have hout : ∀ u, F.Out (pre ++ post) none u ↔ F.Out (pre ++ ⟨b, [t]⟩ :: post) (some t) u := by
    intro u
    rw [Fields.Out, Fields.Out, hmem u, and_assoc]
    refine and_congr_right fun _ => ?_
    rw [and_iff_right (Option.some_ne_none u), (Option.some_injective U32).ne_iff]
  have hobjects := h.same_objects hout fun _ _ => ⟨rfl, rfl⟩
  refine ⟨h.shape.giveBack hidle, fun u hu hfree => h.graded u ((hmem u).mp hu).1 hfree,
    fun r hr => h.coalesced r (mem_inserted.mpr (Or.inr hr)), fun i h0 h32 => ?_, h.bounded, hobjects.1, hobjects.2,
    h.distinct, not_held⟩
  have hnot := wholeAt_single (b := b) h0 hidle
  rw [h.counted i h0 h32, countP_middle (p := wholeAt F i) (q := wholeAt F i) fun _ _ => rfl, hnot]
  simp

theorem insertTag_set_index {first : U32} {v : U32} :
    (F.set t .index v).insertTag t first i = F.insertTag t first i := by
  funext u f
  by_cases hne : first = NULL
  · simp only [Fields.insertTag, hne, ne_eq, not_true, if_false, Fields.set_apply]
    grind
  · simp only [Fields.insertTag, hne, ne_eq, not_false_eq_true, if_true, Fields.set_apply]
    grind

section Carve

variable {u v first : U32}

theorem carve_new (h0 : 0 ≤ i) (h32 : i < 32) : ((F.linkNewTag t n v).insertTag n first i).idx n = i := by
  rw [insertTag_idx h0 h32, if_pos rfl]

theorem carve_idx (h0 : 0 ≤ i) (h32 : i < 32) (hun : u ≠ n) :
    ((F.linkNewTag t n v).insertTag n first i).idx u = F.idx u := by
  rw [insertTag_idx h0 h32, if_neg hun, Fields.idx, linkNewTag_same F hun (by decide) (by decide) (by decide)]
  rfl

theorem carve_size (hun : u ≠ n) : (F.linkNewTag t n v).insertTag n first i u .size = F u .size := by
  rw [insertTag_same _ (by decide) (by decide) (by decide),
    linkNewTag_same F hun (by decide) (by decide) (by decide)]

theorem carve_realSize (hne : t ≠ n) : (F.linkNewTag t n v).insertTag n first i u .realSize =
    if u = t then F t .realSize - v else if u = n then v else F u .realSize := by
  rw [insertTag_same _ (by decide) (by decide) (by decide), linkNewTag_realSize F hne]

end Carve

/-- What the tag in hand does not need becomes a free tag. -/
theorem Sound.split (h : Sound F freePages completePages (pre ++ ⟨b, xs ++ t :: ys⟩ :: post) chain live (some t))
    (hright : ∀ r ∈ ys.head?, F.idx r = -1) {v : U32} (hn : n.toNat + v.toNat = t.toNat + F.len t)
    (hbig : 32 ≤ v.toNat) (hroom : v.toNat + 32 ≤ F.len t) (hi : bucketOf (v - sizeofTag) = i) :
    n ∉ allTags (pre ++ ⟨b, xs ++ t :: ys⟩ :: post) ∧
      ∃ chain', Sound ((F.linkNewTag t n v).insertTag n (freePages i) i) (Function.update freePages i n) completePages
        (pre ++ ⟨b, xs ++ t :: n :: ys⟩ :: post) chain' live (some t) := by
  obtain ⟨htmem, hidle⟩ := h.held t rfl
  obtain ⟨h8, h32⟩ := hi ▸ bucketOf_range (v - sizeofTag)
  have h0 : 0 ≤ i := by omega
  have hfresh := h.shape.split_fresh hn hbig hroom
  have hne : t ≠ n := fun heq => hfresh (heq ▸ htmem)
  have hmem : ∀ u, u ≠ n → (u ∈ allTags (pre ++ ⟨b, xs ++ t :: n :: ys⟩ :: post) ↔
      u ∈ allTags (pre ++ ⟨b, xs ++ t :: ys⟩ :: post)) := fun u hun => by
    rw [allTags_behind, or_iff_right hun]
  have hnmem := (allTags_behind pre post b xs ys t n n).mpr (Or.inl rfl)
  have hshape := (h.shape.split hn hbig hroom).insert h0 h32 hnmem (splitOff_new F).1
  rw [Fields.splitOff, insertTag_set_index] at hshape
  have hold : ∀ u ∈ allTags (pre ++ ⟨b, xs ++ t :: ys⟩ :: post), u ≠ n := fun u hu heq => hfresh (heq ▸ hu)
  have hother : ∀ r ∈ pre ++ post, ∀ u ∈ r.tags,
      ((F.linkNewTag t n v).insertTag n (freePages i) i).idx u = F.idx u := fun r hr u hu =>
    carve_idx h0 h32 (hold u ((allTags_middle _ _ _ _).mpr (Or.inr (mem_allTags.mpr ⟨r, hr, hu⟩))))
  have hout : ∀ u, ((F.linkNewTag t n v).insertTag n (freePages i) i).Out (pre ++ ⟨b, xs ++ t :: n :: ys⟩ :: post)
      (some t) u ↔ F.Out (pre ++ ⟨b, xs ++ t :: ys⟩ :: post) (some t) u := by
    intro u
    by_cases hun : u = n
    · refine iff_of_false (fun hu => ?_) fun hu => hold u hu.1 hun
      have hnew : ((F.linkNewTag t n v).insertTag n (freePages i) i).idx n = i := carve_new h0 h32
      have hused := hun ▸ hu.2.2
      omega
    · rw [Fields.Out, Fields.Out, hmem u hun, carve_idx h0 h32 hun]
  have hobjects := h.same_objects hout fun u hu => by
    have hun := hold u hu.1
    rw [carve_realSize hne, if_neg fun heq => hu.2.1 (congrArg some heq), if_neg hun]
    exact ⟨rfl, carve_size hun⟩
  refine ⟨hfresh, _, hshape, fun u hu hfree => ?_, coalesced_replace h.coalesced hother ?_, fun j hj0 hj32 => ?_,
    h.bounded, hobjects.1, hobjects.2, h.distinct, ?_⟩
  · rw [carve_realSize hne]
    by_cases hun : u = n
    · rw [hun, carve_new h0 h32, if_neg hne.symm, if_pos rfl, hi]
    · rw [carve_idx h0 h32 hun] at hfree ⊢
      have hut : u ≠ t := fun heq => hfree (heq ▸ hidle)
      rw [if_neg hut, if_neg hun]
      exact h.graded u ((hmem u hun).mp hu) hfree
  · have hused : ((F.linkNewTag t n v).insertTag n (freePages i) i).idx t = -1 := (carve_idx h0 h32 hne).trans hidle
    refine Separated.split (h.coalesced _ List.mem_append_cons_self) (not_not_intro hidle) (not_not_intro hused)
      (fun r hr => not_not_intro (hright r hr)) fun u hu => ?_
    rw [Fields.Free, carve_idx h0 h32 (hold u ((allTags_middle _ _ _ _).mpr (Or.inl (mem_inserted.mpr (Or.inr hu)))))]
    exact id
  · rw [h.counted j hj0 hj32, Nat.cast_inj, countP_middle (p := wholeAt F j) (q := wholeAt F j) fun _ _ => rfl,
      countP_middle (p := wholeAt F j) (r := ⟨b, xs ++ t :: n :: ys⟩), wholeAt_long, wholeAt_used hj0 hidle]
    exact fun r hr => wholeAt_congr (hother r hr)
  · rintro u ⟨⟩
    exact ⟨(hmem t hne).mpr htmem, (carve_idx h0 h32 hne).trans hidle⟩

end Moves

end MetalNes.Liballoc
