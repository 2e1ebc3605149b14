import MetalNes.HeapSteps

namespace MetalNes.Liballoc

open ByteWords Loop
open PageChunks (NULL)
open PageRuns (Block)
open Segments Tilings

variable {σ : Type} {h : Heap σ} {runs pre post : List PageRun} {chain : Int → List U32} {live : List Object}
variable {b : Block} {xs ys : List U32} {t r : U32}

theorem meltRight_pass (hs : h.Good (pre ++ ⟨b, xs ++ t :: r :: ys⟩ :: post) chain live (some t))
    (hfree : 0 ≤ indexOf h.mem r) : ∃ h' chain', meltRightBody (h, t) = .next (h', t) ∧
      h'.Good (pre ++ ⟨b, xs ++ t :: ys⟩ :: post) chain' live (some t) ∧
      Within live ((pre ++ ⟨b, xs ++ t :: ys⟩ :: post).map PageRun.block) h h' ∧
      ∀ u ∈ xs, indexOf h'.mem u = indexOf h.mem u := by
  have ht := (hs.held t rfl).1
  have hr : r ∈ allTags (pre ++ ⟨b, xs ++ t :: r :: ys⟩ :: post) :=
    (allTags_middle _ _ _ _).mpr (Or.inl (by simp))
  have hrun := hs.shape.run_shape _ (List.mem_append_right pre List.mem_cons_self)
  obtain ⟨hrt, hrnot, -⟩ := nodup_neighbours hrun.links.nodup
  have hright : get h.mem t .splitRight = r := hrun.links.middle_next
  obtain ⟨hprev, hnext⟩ := hs.links_mem hr
  have hsame : Fields.removeTag (get h.mem) r r .splitRight = get h.mem r .splitRight :=
    removeTag_same _ (by decide) (by decide) (by decide)
  have hbehind : get h.mem r .splitRight ≠ NULL →
      get h.mem r .splitRight ∈ allTags (pre ++ ⟨b, xs ++ t :: r :: ys⟩ :: post) := fun hne =>
    (allTags_middle _ _ _ _).mpr (Or.inl ((hrun.links.next_mem (by simp)).resolve_right hne))
  have hw := absorbRight_wrote (Wrote.refl _ h.mem) hs.shape.apart ht hright hr hrt hprev hnext (by rwa [hsame])
  have hpages := removeTag_freePages (Wrote.refl _ h.mem) hr
  obtain ⟨chain', hsound⟩ := hs.joinRight (r := r) (fun heq => by
    rw [show indexOf h.mem r = -1 from heq] at hfree
    exact absurd hfree (by decide))
  have habsorbed : (absorbRight h t).freePages = (removeTag h r).freePages := by
    simp only [absorbRight, hright]
  have hcomplete : (absorbRight h t).completePages = h.completePages := by
    simp only [absorbRight, hright]
    rfl
  refine ⟨absorbRight h t, chain', ?_, ?_, ⟨?_, ?_, ?_⟩, fun u hu => ?_⟩
  · have hne : r ≠ NULL := hrun.ne_null (by simp)
    simp only [meltRightBody, hright]
    rw [if_pos ⟨hne, hfree⟩]
  · rw [← hpages, ← habsorbed, ← hcomplete] at hsound
    refine hsound.read fun u hu f => hw.fields u ?_ f
    exact (allTags_behind _ _ _ _ _ _ _ _).mpr (Or.inr hu)
  · rw [blocks_middle _ (xs ++ t :: r :: ys)]
    exact hs.touched hw
  · simp only [absorbRight, hright]
    rfl
  · simp only [absorbRight, hright]
    rfl
  · have hur : u ≠ r := fun heq => hrnot (heq ▸ List.mem_append_left _ hu)
    have hmem : u ∈ allTags (pre ++ ⟨b, xs ++ t :: r :: ys⟩ :: post) :=
      (allTags_middle _ _ _ _).mpr (Or.inl (List.mem_append_left _ hu))
    rw [indexOf, hw.fields u hmem, join_same _ (by decide) (by decide) (by decide), removeTag_index, if_neg hur]
    rfl

theorem Sound.used_of_neg {hand : Option U32} (hs : h.Good runs chain live hand) (ht : t ∈ allTags runs)
    (hneg : ¬ 0 ≤ indexOf h.mem t) : indexOf h.mem t = -1 := by
  rcases hs.shape.buckets.idx_cases t ht with hidle | hfree
  · exact hidle
  · exact absurd hfree.1 hneg

/-- The loop to the left ends, and the tag on the left is then in use. -/
theorem meltLeft_loop (hs : h.Good (pre ++ ⟨b, xs ++ t :: ys⟩ :: post) chain live (some t)) :
    ∃ h' t' xs' chain', Returns meltLeftBody (h, t) (h', t') ∧
      h'.Good (pre ++ ⟨b, xs' ++ t' :: ys⟩ :: post) chain' live (some t') ∧
      Within live ((pre ++ ⟨b, xs' ++ t' :: ys⟩ :: post).map PageRun.block) h h' ∧
      ∀ l ∈ xs'.getLast?, indexOf h'.mem l = -1 := by
  induction xs using List.reverseRecOn generalizing h t chain with
  | nil =>
      have hrun := hs.shape.run_shape _ (List.mem_append_right pre List.mem_cons_self)
      have hleft : get h.mem t .splitLeft = NULL := hrun.links.middle_prev
      have hdone : meltLeftBody (h, t) = .done (h, t) := by
        simp only [meltLeftBody, hleft]
        exact if_neg fun hboth => hboth.1 rfl
      exact ⟨h, t, [], chain, Returns.of_done hdone, hs, Within.refl _ _ h,
        fun l hl => absurd hl (Option.not_mem_none l)⟩
  | append_singleton xs l ih =>
      have hrun := hs.shape.run_shape _ (List.mem_append_right pre List.mem_cons_self)
      by_cases hfree : 0 ≤ indexOf h.mem l
      · have hs' : h.Good (pre ++ ⟨b, xs ++ l :: t :: ys⟩ :: post) chain live (some t) := by simpa using hs
        obtain ⟨h₁, chain₁, hpass, hgood, hwithin⟩ := meltLeft_pass hs' hfree
        obtain ⟨h', t', xs', chain', hrest, hgood', hwithin', hused⟩ := ih hgood
        refine ⟨h', t', xs', chain', Returns.of_next hpass hrest, hgood', ?_, hused⟩
        rw [blocks_middle _ (xs' ++ t' :: ys)] at hwithin
        exact hwithin.trans hwithin'
      · have hl : l ∈ allTags (pre ++ ⟨b, (xs ++ [l]) ++ t :: ys⟩ :: post) :=
          (allTags_middle _ _ _ _).mpr (Or.inl (by simp))
        have hleft : get h.mem t .splitLeft = l := by simpa using hrun.links.middle_prev
        have hdone : meltLeftBody (h, t) = .done (h, t) := by
          simp only [meltLeftBody, hleft]
          exact if_neg fun hboth => hfree hboth.2
        refine ⟨h, t, xs ++ [l], chain, Returns.of_done hdone, hs, Within.refl _ _ h, fun u hu => ?_⟩
        obtain rfl : l = u := by simpa using hu
        exact hs.used_of_neg hl hfree

theorem meltRight_loop (hs : h.Good (pre ++ ⟨b, xs ++ t :: ys⟩ :: post) chain live (some t))
    (hleft : ∀ l ∈ xs.getLast?, indexOf h.mem l = -1) :
    ∃ h' ys' chain', Returns meltRightBody (h, t) (h', t) ∧
      h'.Good (pre ++ ⟨b, xs ++ t :: ys'⟩ :: post) chain' live (some t) ∧
      Within live ((pre ++ ⟨b, xs ++ t :: ys'⟩ :: post).map PageRun.block) h h' ∧
      Fields.UsedAround (get h'.mem) xs ys' := by
  induction ys generalizing h chain with
  | nil =>
      have hrun := hs.shape.run_shape _ (List.mem_append_right pre List.mem_cons_self)
      have hright : get h.mem t .splitRight = NULL := hrun.links.middle_next
      have hdone : meltRightBody (h, t) = .done (h, t) := by
        simp only [meltRightBody, hright]
        exact if_neg fun hboth => hboth.1 rfl
      exact ⟨h, [], chain, Returns.of_done hdone, hs, Within.refl _ _ h, hleft,
        fun l hl => absurd hl (Option.not_mem_none l)⟩
  | cons r ys ih =>
      have hrun := hs.shape.run_shape _ (List.mem_append_right pre List.mem_cons_self)
      by_cases hfree : 0 ≤ indexOf h.mem r
      · obtain ⟨h₁, chain₁, hpass, hgood, hwithin, hkeep⟩ := meltRight_pass hs hfree
        obtain ⟨h', ys', chain', hrest, hgood', hwithin', hused⟩ :=
          ih hgood fun l hl => (hkeep l (List.mem_of_mem_getLast? hl)).trans (hleft l hl)
        refine ⟨h', ys', chain', Returns.of_next hpass hrest, hgood', ?_, hused⟩
        rw [blocks_middle _ (xs ++ t :: ys')] at hwithin
        exact hwithin.trans hwithin'
      · have hr : r ∈ allTags (pre ++ ⟨b, xs ++ t :: r :: ys⟩ :: post) :=
          (allTags_middle _ _ _ _).mpr (Or.inl (by simp))
        have hright : get h.mem t .splitRight = r := hrun.links.middle_next
        have hdone : meltRightBody (h, t) = .done (h, t) := by
          simp only [meltRightBody, hright]
          exact if_neg fun hboth => hfree hboth.2
        refine ⟨h, r :: ys, chain, Returns.of_done hdone, hs, Within.refl _ _ h, hleft, fun u hu => ?_⟩
        obtain rfl : r = u := by simpa using hu
        exact hs.used_of_neg hr hfree

end MetalNes.Liballoc
