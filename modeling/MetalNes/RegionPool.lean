import Mathlib.Data.Set.Lattice
import Mathlib.Order.CompletePartialOrder
import Mathlib.Data.List.Pairwise
import Mathlib.Data.Finset.Card

namespace MetalNes.RegionPool

variable {α β : Type}

/-- A pool hands out extents of a region and takes them back. Nothing is said
about how the free part is stored. -/
structure Pool (α β : Type) where
  free : Set α
  held : List β

def heldSet (extent : β → Set α) (held : List β) : Set α := {x | ∃ b ∈ held, x ∈ extent b}

/-- The moves of a pool that may lose free elements, but never invents any. -/
inductive Step (extent : β → Set α) : Pool α β → Pool α β → Prop
  | grant {p : Pool α β} (b : β) (free : Set α) (hb : extent b ⊆ p.free)
      (hfree : free ⊆ p.free \ extent b) : Step extent p ⟨free, b :: p.held⟩
  | release (free free' : Set α) (pre post : List β) (b : β) (hfree : free' ⊆ free ∪ extent b) :
      Step extent ⟨free, pre ++ b :: post⟩ ⟨free', pre ++ post⟩

structure Exclusive (extent : β → Set α) (region : Set α) (p : Pool α β) : Prop where
  apart : p.held.Pairwise fun b c => Disjoint (extent b) (extent c)
  inside : ∀ b ∈ p.held, extent b ⊆ region
  free_inside : p.free ⊆ region
  free_apart : ∀ b ∈ p.held, Disjoint (extent b) p.free

def Covered (extent : β → Set α) (region : Set α) (p : Pool α β) : Prop :=
  region ⊆ p.free ∪ heldSet extent p.held

variable {extent : β → Set α} {region : Set α}

theorem heldSet_cons (b : β) (held : List β) :
    heldSet extent (b :: held) = extent b ∪ heldSet extent held := by
  ext x
  simp [heldSet]

theorem heldSet_middle (pre post : List β) (b : β) :
    heldSet extent (pre ++ b :: post) = extent b ∪ heldSet extent (pre ++ post) := by
  ext x
  simp only [heldSet, List.mem_append, List.mem_cons, Set.mem_ofPred_eq, Set.mem_union]
  constructor
  · rintro ⟨c, hc | rfl | hc, hx⟩
    · exact .inr ⟨c, .inl hc, hx⟩
    · exact .inl hx
    · exact .inr ⟨c, .inr hc, hx⟩
  · rintro (hx | ⟨c, hc | hc, hx⟩)
    · exact ⟨b, .inr (.inl rfl), hx⟩
    · exact ⟨c, .inl hc, hx⟩
    · exact ⟨c, .inr (.inr hc), hx⟩

theorem Exclusive.apart_middle {free : Set α} {pre post : List β} {b : β}
    (h : Exclusive extent region ⟨free, pre ++ b :: post⟩) :
    ∀ c ∈ pre ++ post, Disjoint (extent b) (extent c) := by
  intro c hc
  have hp := h.apart
  rw [List.pairwise_append] at hp
  rcases List.mem_append.mp hc with hc | hc
  · exact (hp.2.2 c hc b List.mem_cons_self).symm
  · exact (List.pairwise_cons.mp hp.2.1).1 c hc

/-- Extents that are out at the same time never meet, whatever the pool forgets. -/
theorem Exclusive.step {p q : Pool α β} (h : Exclusive extent region p) (hs : Step extent p q) :
    Exclusive extent region q := by
  cases hs with
  | grant b free hb hfree =>
      have hsub : free ⊆ p.free := hfree.trans Set.sdiff_subset
      refine ⟨List.pairwise_cons.mpr ⟨?_, h.apart⟩, ?_, hsub.trans h.free_inside, ?_⟩
      · intro c hc
        exact ((h.free_apart c hc).mono_right hb).symm
      · intro c hc
        rcases List.mem_cons.mp hc with rfl | hc
        · exact hb.trans h.free_inside
        · exact h.inside c hc
      · intro c hc
        rcases List.mem_cons.mp hc with rfl | hc
        · exact Set.disjoint_sdiff_right.mono_right hfree
        · exact (h.free_apart c hc).mono_right hsub
  | release free free' pre post b hfree =>
      have hmem : ∀ c ∈ pre ++ post, c ∈ pre ++ b :: post := by
        intro c hc
        rcases List.mem_append.mp hc with hc | hc
        · exact List.mem_append_left _ hc
        · exact List.mem_append_right _ (List.mem_cons_of_mem b hc)
      refine ⟨?_, fun c hc => h.inside c (hmem c hc), ?_, ?_⟩
      · exact h.apart.sublist (List.Sublist.append_left (List.sublist_cons_self b post) pre)
      · exact hfree.trans (Set.union_subset h.free_inside (h.inside b (by simp)))
      · intro c hc
        refine Disjoint.mono_right hfree (Set.disjoint_union_right.mpr ⟨?_, ?_⟩)
        · exact h.free_apart c (hmem c hc)
        · exact (h.apart_middle c hc).symm

theorem Covered.grant {p : Pool α β} (h : Covered extent region p) {b : β} {free : Set α}
    (hfree : p.free \ extent b ⊆ free) : Covered extent region ⟨free, b :: p.held⟩ := by
  intro x hx
  simp only [heldSet_cons]
  by_cases hb : x ∈ extent b
  · exact .inr (.inl hb)
  · rcases h hx with hf | hf
    · exact .inl (hfree ⟨hf, hb⟩)
    · exact .inr (.inr hf)

theorem Covered.release {free free' : Set α} {pre post : List β} {b : β}
    (h : Covered extent region ⟨free, pre ++ b :: post⟩) (hfree : free ∪ extent b ⊆ free') :
    Covered extent region ⟨free', pre ++ post⟩ := by
  intro x hx
  have hc := h hx
  simp only [heldSet_middle] at hc
  rcases hc with hf | hb | hf
  · exact .inl (hfree (.inl hf))
  · exact .inl (hfree (.inr hb))
  · exact .inr hf

/-- An element of a returned extent that is not free afterwards is gone: no
holder can still account for it. -/
theorem not_covered_of_dropped {free free' : Set α} {pre post : List β} {b : β}
    (h : Exclusive extent region ⟨free, pre ++ b :: post⟩) {x : α} (hx : x ∈ extent b)
    (hlost : x ∉ free') : ¬ Covered extent region ⟨free', pre ++ post⟩ := by
  intro hc
  rcases hc (h.inside b (by simp) hx) with hf | ⟨c, hmem, hxc⟩
  · exact hlost hf
  · exact Set.disjoint_left.mp (h.apart_middle c hmem) hx hxc

/-- Extents that lie apart in a finite region are no more than find room there. -/
theorem length_mul_le [DecidableEq α] (part : β → Finset α) {xs : List β} (whole : Finset α) {n : Nat}
    (hapart : xs.Pairwise fun b c => Disjoint (part b) (part c)) (hin : ∀ b ∈ xs, part b ⊆ whole)
    (hsize : ∀ b ∈ xs, n ≤ (part b).card) : n * xs.length ≤ whole.card := by
  induction xs generalizing whole with
  | nil => exact Nat.zero_le _
  | cons b rest ih =>
      obtain ⟨hb, hrest⟩ := List.forall_mem_cons.mp hin
      obtain ⟨hbrest, hapart⟩ := List.pairwise_cons.mp hapart
      obtain ⟨hbsize, hsize⟩ := List.forall_mem_cons.mp hsize
      have hsmaller := ih (whole \ part b) hapart (fun c hc =>
        Finset.subset_sdiff.mpr ⟨hrest c hc, (hbrest c hc).symm⟩) hsize
      rw [Finset.card_sdiff_of_subset hb] at hsmaller
      have hle := Finset.card_le_card hb
      rw [List.length_cons, Nat.mul_succ]
      omega

end MetalNes.RegionPool
