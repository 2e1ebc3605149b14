import MetalNes.HeapShape

namespace MetalNes.Liballoc

open PageChunks (NULL)
open PageRuns (Block)
open Segments Tilings

section Members

variable (F : Fields) {tag first u t n : U32}

theorem removeTag_next (hu : u ≠ NULL) : F.removeTag tag u .next =
    if u = tag then NULL else if u = F tag .prev then F tag .next else F u .next := by
  simp only [Fields.removeTag, Fields.set_apply, Fields.setBehind_apply]
  grind

theorem removeTag_prev (hu : u ≠ NULL) : F.removeTag tag u .prev =
    if u = tag then NULL else if u = F tag .next then F tag .prev else F u .prev := by
  simp only [Fields.removeTag, Fields.set_apply, Fields.setBehind_apply]
  grind

theorem removeTag_index : F.removeTag tag u .index = if u = tag then -1 else F u .index := by
  simp [Fields.removeTag]

theorem removeTag_same {f : Field} (hnext : f ≠ .next) (hprev : f ≠ .prev) (hindex : f ≠ .index) :
    F.removeTag tag u f = F u f := by
  simp [Fields.removeTag, hnext, hprev, hindex]

theorem insertTag_next {i : Int} : F.insertTag tag first i u .next =
    if u = tag ∧ first ≠ NULL then first else F u .next := by
  by_cases hne : first = NULL <;> simp [Fields.insertTag, hne]

theorem insertTag_prev {i : Int} : F.insertTag tag first i u .prev =
    if u = first ∧ first ≠ NULL then tag else F u .prev := by
  by_cases hne : first = NULL <;> simp [Fields.insertTag, hne]

theorem insertTag_index {i : Int} : F.insertTag tag first i u .index =
    if u = tag then BitVec.ofInt 32 i else F u .index := by
  by_cases hne : first = NULL <;> simp [Fields.insertTag, hne]

theorem insertTag_same {f : Field} (hnext : f ≠ .next) (hprev : f ≠ .prev) (hindex : f ≠ .index) {i : Int} :
    F.insertTag tag first i u f = F u f := by
  by_cases hne : first = NULL <;> simp [Fields.insertTag, hne, hnext, hprev, hindex]

theorem join_realSize : F.join t n u .realSize =
    if u = t then F t .realSize + F n .realSize else F u .realSize := by
  simp [Fields.join]

theorem join_splitRight (hne : n ≠ t) : F.join t n u .splitRight =
    if u = t then F n .splitRight else F u .splitRight := by
  simp [Fields.join, hne]

theorem join_splitLeft (hne : n ≠ t) (hu : u ≠ NULL) : F.join t n u .splitLeft =
    if u = F n .splitRight then t else F u .splitLeft := by
  simp only [Fields.join, Fields.set_apply, Fields.setBehind_apply]
  grind

theorem join_same {f : Field} (hsize : f ≠ .realSize) (hright : f ≠ .splitRight) (hleft : f ≠ .splitLeft) :
    F.join t n u f = F u f := by
  simp [Fields.join, hsize, hright, hleft]

end Members

section Buckets

variable {F : Fields} {freePages : Int → U32} {tags : List U32} {chain : Int → List U32} {t u : U32} {i : Int}
variable {xs ys : List U32}

theorem removeTag_idx : (F.removeTag t).idx u = if u = t then -1 else F.idx u := by
  rw [Fields.idx, removeTag_index]
  split
  · decide
  · rfl

theorem insertTag_idx {first : U32} (h0 : 0 ≤ i) (h32 : i < 32) :
    (F.insertTag t first i).idx u = if u = t then i else F.idx u := by
  rw [Fields.idx, insertTag_index]
  split
  · rw [BitVec.toInt_ofInt]
    exact Int.bmod_eq_of_le (by omega) (by omega)
  · rfl

theorem Buckets.ne_null (h : Buckets F freePages tags chain) (h0 : 0 ≤ i) (h32 : i < 32) (ht : t ∈ chain i) :
    t ≠ NULL := fun hnull => (h.linked i h0 h32).stop_notMem (hnull ▸ ht)

section Remove

variable (h : Buckets F freePages tags chain) (h0 : 0 ≤ i) (h32 : i < 32) (hc : chain i = xs ++ t :: ys)

include h h0 h32 hc

theorem Buckets.here_free : t ∈ tags ∧ F.idx t = i :=
  h.chain_free h0 h32 (hc ▸ List.mem_append_cons_self)

theorem Buckets.notMem_rest : t ∉ xs ++ ys :=
  (List.nodup_middle.mp (hc ▸ (h.linked i h0 h32).nodup)).notMem

/-- The other lists neither have the tag nor its neighbours. -/
theorem Buckets.other_list {j : Int} (hj0 : 0 ≤ j) (hj32 : j < 32) (hji : j ≠ i) (hu : u ∈ chain j) :
    u ≠ t ∧ u ≠ F t .prev ∧ u ≠ F t .next ∧ u ≠ NULL := by
  obtain ⟨ht, hidx⟩ := h.here_free h0 h32 hc
  have hju := (h.chain_free hj0 hj32 hu).2
  have hnull := h.ne_null hj0 hj32 hu
  refine ⟨fun heq => ?_, fun heq => ?_, fun heq => ?_, hnull⟩
  · exact hji (hju.symm.trans (heq ▸ hidx))
  · have hp := (h.prev_mem ht (heq ▸ hnull)).2
    exact hji (hju.symm.trans (by rw [heq, hp, hidx]))
  · have hn := (h.next_mem ht (heq ▸ hnull)).2
    exact hji (hju.symm.trans (by rw [heq, hn, hidx]))

theorem Buckets.removed_here : Whole NULL (F.removeTag t · .next) (F.removeTag t · .prev)
    (if freePages i = t then F t .next else freePages i) (xs ++ ys) := by
  have hlist := h.linked i h0 h32
  have hfresh := h.notMem_rest h0 h32 hc
  have hother : ∀ u ∈ xs ++ ys, u ≠ t ∧ u ≠ NULL := fun u hu =>
    ⟨fun heq => hfresh (heq ▸ hu), h.ne_null h0 h32 (hc ▸ mem_inserted.mpr (Or.inr hu))⟩
  rw [hc] at hlist
  refine hlist.unlink (fun u hu => ?_) fun u hu => ?_
  · rw [removeTag_next F (hother u hu).2, if_neg (hother u hu).1]
  · rw [removeTag_prev F (hother u hu).2, if_neg (hother u hu).1]

theorem Buckets.removed_linked {j : Int} (hj0 : 0 ≤ j) (hj32 : j < 32) :
    Whole NULL (F.removeTag t · .next) (F.removeTag t · .prev)
      ((if freePages i = t then Function.update freePages i (F t .next) else freePages) j)
      (Function.update chain i (xs ++ ys) j) := by
  have hpage : (if freePages i = t then Function.update freePages i (F t .next) else freePages) j =
      if j = i then if freePages i = t then F t .next else freePages i else freePages j := by
    split_ifs with hfirst hji hji <;> simp_all
  rw [hpage]
  by_cases hji : j = i
  · rw [if_pos hji, hji, Function.update_self]
    exact h.removed_here h0 h32 hc
  · rw [if_neg hji, Function.update_of_ne hji]
    refine (h.linked j hj0 hj32).congr (fun u hu => ?_) fun u hu => ?_
    · obtain ⟨hut, hup, -, hnull⟩ := h.other_list h0 h32 hc hj0 hj32 hji hu
      rw [removeTag_next F hnull, if_neg hut, if_neg hup]
    · obtain ⟨hut, -, hun, hnull⟩ := h.other_list h0 h32 hc hj0 hj32 hji hu
      rw [removeTag_prev F hnull, if_neg hut, if_neg hun]

theorem Buckets.mem_removed_iff {j : Int} (hj0 : 0 ≤ j) (hj32 : j < 32) :
    u ∈ Function.update chain i (xs ++ ys) j ↔ u ∈ tags ∧ (F.removeTag t).idx u = j := by
  have hrest : u ∈ Function.update chain i (xs ++ ys) j ↔ u ∈ chain j ∧ u ≠ t := by
    by_cases hji : j = i
    · rw [hji, Function.update_self, hc, mem_inserted]
      exact ⟨fun hu => ⟨Or.inr hu, fun heq => h.notMem_rest h0 h32 hc (heq ▸ hu)⟩, fun hu => hu.1.resolve_left hu.2⟩
    · rw [Function.update_of_ne hji]
      exact ⟨fun hu => ⟨hu, (h.other_list h0 h32 hc hj0 hj32 hji hu).1⟩, And.left⟩
  rw [hrest, removeTag_idx, h.mem_iff j hj0 hj32]
  by_cases hut : u = t
  · rw [if_pos hut]
    exact iff_of_false (fun hu => hu.2 hut) (by omega)
  · rw [if_neg hut]
    exact and_iff_left hut

theorem Buckets.removed_alone (hune : u ≠ NULL) (hu : u ∈ tags) (hidle : (F.removeTag t).idx u = -1) :
    F.removeTag t u .next = NULL ∧ F.removeTag t u .prev = NULL := by
  have ht := (h.here_free h0 h32 hc).1
  rw [removeTag_next F hune, removeTag_prev F hune]
  rw [removeTag_idx] at hidle
  by_cases hut : u = t
  · rw [if_pos hut, if_pos hut]
    exact ⟨rfl, rfl⟩
  · rw [if_neg hut] at hidle
    have hidx := (h.here_free h0 h32 hc).2
    have hnotprev : u ≠ F t .prev := by
      rintro rfl
      have hp := (h.prev_mem ht hune).2
      omega
    have hnotnext : u ≠ F t .next := by
      rintro rfl
      have hn := (h.next_mem ht hune).2
      omega
    rw [if_neg hut, if_neg hut, if_neg hnotprev, if_neg hnotnext]
    exact h.alone u hu hidle

theorem Buckets.remove (hnull : NULL ∉ tags) : Buckets (F.removeTag t)
    (if freePages i = t then Function.update freePages i (F t .next) else freePages) tags
    (Function.update chain i (xs ++ ys)) where
  linked _ hj0 hj32 := h.removed_linked h0 h32 hc hj0 hj32
  mem_iff _ hj0 hj32 _ := h.mem_removed_iff h0 h32 hc hj0 hj32
  idx_cases u hu := by
    rw [removeTag_idx]
    by_cases hut : u = t
    · rw [if_pos hut]
      exact Or.inl rfl
    · rw [if_neg hut]
      exact h.idx_cases u hu
  alone u hu := h.removed_alone h0 h32 hc (fun heq => hnull (heq ▸ hu)) hu

end Remove

theorem Buckets.insert (h : Buckets F freePages tags chain) (hnull : NULL ∉ tags) (h0 : 0 ≤ i) (h32 : i < 32)
    (ht : t ∈ tags) (hused : F.idx t = -1) : Buckets (F.insertTag t (freePages i) i)
      (Function.update freePages i t) tags (Function.update chain i (t :: chain i)) := by
  obtain ⟨hnext, hprev⟩ := h.alone t ht hused
  have hout : ∀ j, 0 ≤ j → j < 32 → t ∉ chain j := by
    intro j hj0 hj32 hmem
    have hidx := (h.chain_free hj0 hj32 hmem).2
    omega
  have hfirst : ∀ u ∈ tags, F.idx u ≠ i → ¬ (u = freePages i ∧ freePages i ≠ NULL) := by
    rintro u hu hidx ⟨rfl, hne⟩
    exact hidx (h.first_mem h0 h32 hne).2
  constructor
  · intro j hj0 hj32
    by_cases hji : j = i
    · subst hji
      rw [Function.update_self, Function.update_self]
      have htne : t ≠ NULL := fun heq => hnull (heq ▸ ht)
      refine (h.linked j hj0 hj32).push htne ⟨?_, ?_⟩ (fun u hu => ?_) fun u hu => ?_
      · rw [insertTag_next, hnext]
        grind
      · rw [insertTag_prev, if_neg (hfirst t ht (by omega)), hprev]
      · rw [insertTag_next, if_neg]
        exact fun hboth => hout j hj0 hj32 (hboth.1 ▸ hu)
      · have hne := h.ne_null hj0 hj32 hu
        rw [insertTag_prev]
        grind
    · rw [Function.update_of_ne hji, Function.update_of_ne hji]
      refine (h.linked j hj0 hj32).congr (fun u hu => ?_) fun u hu => ?_
      · rw [insertTag_next, if_neg]
        exact fun hboth => hout j hj0 hj32 (hboth.1 ▸ hu)
      · obtain ⟨hmem, hidx⟩ := h.chain_free hj0 hj32 hu
        rw [insertTag_prev, if_neg (hfirst u hmem (by omega))]
  · intro j hj0 hj32 u
    rw [insertTag_idx h0 h32]
    by_cases hut : u = t
    · rw [if_pos hut, hut]
      by_cases hji : j = i
      · rw [hji, Function.update_self]
        simp [ht]
      · rw [Function.update_of_ne hji]
        exact iff_of_false (hout j hj0 hj32) fun hboth => hji hboth.2.symm
    · rw [if_neg hut, ← h.mem_iff j hj0 hj32]
      by_cases hji : j = i
      · rw [hji, Function.update_self]
        simp [hut]
      · rw [Function.update_of_ne hji]
  · intro u hu
    rw [insertTag_idx h0 h32]
    by_cases hut : u = t
    · rw [if_pos hut]
      exact Or.inr ⟨h0, h32⟩
    · rw [if_neg hut]
      exact h.idx_cases u hu
  · intro u hu hidx
    rw [insertTag_idx h0 h32] at hidx
    by_cases hut : u = t
    · rw [if_pos hut] at hidx
      omega
    · rw [if_neg hut] at hidx
      rw [insertTag_next, insertTag_prev, if_neg fun hboth => hut hboth.1, if_neg (hfirst u hu (by omega))]
      exact h.alone u hu hidx

end Buckets

end MetalNes.Liballoc
