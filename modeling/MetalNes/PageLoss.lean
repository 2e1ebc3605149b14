import MetalNes.PageRuns

namespace MetalNes.PageLoss

open PageChunks PageRuns RegionPool

def page (k : KernelImage) (i : Nat) : Set Nat :=
  Set.Ico (k.kernelEnd.toNat + 4096 * i) (k.kernelEnd.toNat + 4096 * (i + 1))

def NoPageLost (k : KernelImage) (c : Config) : Prop :=
  ∀ i < (initialPages k).toNat, (∃ b ∈ c.held, page k i ⊆ b.extent) ∨
    ∃ p, Reachable c.heap p ∧ page k i ⊆ chunkExtent c.heap.mem p

/-- What a completed call has to leave behind: every page accounted for, and the
pages of a freed block back on the list. -/
structure KeepsPages (k : KernelImage) (t : Transition) : Prop where
  kept : NoPageLost k t.after
  freed : ∀ b, t.call = .freePage b → b.extent ⊆ freeSet t.after.heap

def FreesIntoEmptyList (t : Transition) : Prop :=
  ∀ b, t.call = .freePage b → t.before.heap.rootMemNode = NULL

section Pages

variable {k : KernelImage} {c c' : Config} {call : Call}

theorem page_subset {i a n : Nat} (ha : 4096 ∣ a)
    (hx : k.kernelEnd.toNat + 4096 * i ∈ Set.Ico a (a + 4096 * n)) :
    page k i ⊆ Set.Ico a (a + 4096 * n) := by
  obtain ⟨q, rfl⟩ := ha
  obtain ⟨r, hr⟩ := k.aligned
  rw [hr, Set.mem_Ico] at hx
  rw [page, hr]
  exact Set.Ico_subset_Ico hx.1 (by omega)

theorem noPageLost_iff_covered (hs : Sound k c) :
    NoPageLost k c ↔ Covered Block.extent (region k) (pool c) := by
  constructor
  · intro h x hx
    have hi : x ∈ page k ((x - k.kernelEnd.toNat) / 4096) := by
      simp only [region, page, Set.mem_Ico] at hx ⊢
      omega
    have hlt : (x - k.kernelEnd.toNat) / 4096 < (initialPages k).toNat := by
      simp only [region, Set.mem_Ico] at hx
      omega
    rcases h _ hlt with ⟨b, hb, hsub⟩ | ⟨p, hp, hsub⟩
    · exact .inr ⟨b, hb, hsub hi⟩
    · exact .inl ⟨p, hp, hsub hi⟩
  · intro h i hi
    have hx : k.kernelEnd.toNat + 4096 * i ∈ region k := by
      simp only [region, Set.mem_Ico]
      omega
    rcases h hx with ⟨p, hp, hmem⟩ | ⟨b, hb, hmem⟩
    · obtain ⟨hr, rfl⟩ := (hs.single.reachable_iff p).mp hp
      exact .inr ⟨_, hp, page_subset (hs.root_aligned hr) hmem⟩
    · exact .inl ⟨b, hb, page_subset (hs.block_aligned b hb) hmem⟩

theorem noPageLost_init (k : KernelImage) (mem : Memory) : NoPageLost k ⟨initPmm k mem, []⟩ := by
  rw [noPageLost_iff_covered (.init k mem)]
  intro x hx
  exact .inl ((freeSet_init k mem).symm.subset hx)

theorem KeepsPages.of_step (hs : Sound k c) (hk : NoPageLost k c) (h : Step c call c')
    (he : FreesIntoEmptyList ⟨c, call, c'⟩) : KeepsPages k ⟨c, call, c'⟩ := by
  have hcovered := (noPageLost_iff_covered hs).mp hk
  have hs' := hs.step h
  suffices hcov : Covered Block.extent (region k) (pool c') ∧
      ∀ b, call = .freePage b → b.extent ⊆ freeSet c'.heap from
    ⟨(noPageLost_iff_covered hs').mpr hcov.1, hcov.2⟩
  cases h with
  | @alloc _ n p s fuel hn h =>
      refine ⟨?_, fun b hb => by cases hb⟩
      rcases hs.alloc_effect hn h with ⟨rfl, rfl⟩ | ⟨hp, _, _, hfree, _⟩
      · exact hcovered
      · simp only [pool, if_neg hp]
        exact hcovered.grant hfree.symm.subset
  | @free heap s pre post b fuel h =>
      rcases free_effect hs h with ⟨hr, hsingle, hfree, _⟩ | ⟨hr, _⟩
      · -- the list was empty: the freed block is the whole list now
        have hempty := hs.single.freeSet_null hr
        refine ⟨hcovered.release ?_, ?_⟩
        · simp only [hempty, hfree, Set.empty_union, subset_refl]
        · intro d hd
          cases hd
          exact hfree.symm.subset
      · exact absurd (he b rfl) hr
  | write mem h =>
      have hsame := hs.single.sameHeader { c.heap with mem } rfl (hs.write_header h)
      refine ⟨?_, fun b hb => by cases hb⟩
      rw [pool, hsame.2]
      exact hcovered

/-- A freePage call that completes on a non-empty list loses its whole block:
the new chunk is linked towards the root, but nothing links to it. -/
theorem not_noPageLost_of_free {b : Block} (hs : Sound k c) (h : Step c (.freePage b) c')
    (hr : c.heap.rootMemNode ≠ NULL) : ¬ NoPageLost k c' := by
  rw [noPageLost_iff_covered (hs.step h)]
  cases h with
  | @free heap s pre post _ fuel h =>
      have hmem : b ∈ pre ++ b :: post := by simp
      have hn := hs.pages_pos b hmem
      have hx : b.addr.toNat ∈ b.extent := Set.left_mem_Ico.mpr (by bv_omega)
      rcases free_effect hs h with ⟨hr', _⟩ | ⟨_, _, hfree, _⟩
      · exact absurd hr' hr
      · refine not_covered_of_dropped hs.exclusive hx ?_
        rw [hfree]
        exact Set.disjoint_left.mp (hs.exclusive.free_apart b hmem) hx

end Pages

section Runs

variable {k : KernelImage} {history : List Transition} {c : Config}

theorem mem_history (hr : Run k history c) {t : Transition} (ht : t ∈ history) :
    Sound k t.before ∧ Step t.before t.call t.after := by
  induction hr with
  | init mem => cases ht
  | step hr hs ih =>
      rcases List.mem_cons.mp ht with rfl | ht
      · exact ⟨hr.sound, hs⟩
      · exact ih ht

theorem noPageLost_of_run (hr : Run k history c) (he : ∀ t ∈ history, FreesIntoEmptyList t) :
    NoPageLost k c ∧ ∀ t ∈ history, KeepsPages k t := by
  induction hr with
  | init mem => exact ⟨noPageLost_init k mem, by simp⟩
  | step hr hs ih =>
      obtain ⟨hlost, hkeeps⟩ := ih fun t ht => he t (List.mem_cons_of_mem _ ht)
      have hlast := KeepsPages.of_step hr.sound hlost hs (he _ List.mem_cons_self)
      refine ⟨hlast.kept, ?_⟩
      intro t ht
      rcases List.mem_cons.mp ht with rfl | ht
      · exact hlast
      · exact hkeeps t ht

/-- A run loses no page, after any of its calls, exactly when each of its
freePage calls finds an empty free list. -/
theorem run_keepsPages_iff (hr : Run k history c) :
    (∀ t ∈ history, KeepsPages k t) ↔ ∀ t ∈ history, FreesIntoEmptyList t := by
  constructor
  · rintro h ⟨before, call, after⟩ ht b rfl
    by_contra hroot
    obtain ⟨hs, hstep⟩ := mem_history hr ht
    exact not_noPageLost_of_free hs hstep hroot (h _ ht).kept
  · intro h
    exact (noPageLost_of_run hr h).2

end Runs

def returnedHeap : Pmm :=
  { takenHeap with mem := insertChunk takenHeap.mem 0x20000 1 0x21000,
                   memUsed := takenHeap.memUsed - 4096 }

theorem run_loses_returned_page : ∃ history c, Run smallestImage history c ∧
    ¬ ∀ t ∈ history, KeepsPages smallestImage t := by
  have hfree : freePage 1 takenHeap 0x20000 1 = some returnedHeap := rfl
  have hs : Step ⟨takenHeap, [] ++ ⟨0x20000, 1⟩ :: []⟩ (.freePage ⟨0x20000, 1⟩) ⟨returnedHeap, []⟩ :=
    .free 1 hfree
  refine ⟨_, _, run_taken.step hs, fun h => ?_⟩
  exact not_noPageLost_of_free run_taken.sound hs (by decide) (h _ List.mem_cons_self).kept

def emptyHeap : Pmm := takeChunk bootHeap 32736 0x20000

def refilledHeap : Pmm :=
  { emptyHeap with
    mem := setNext (setPrev (setPageCount emptyHeap.mem 0x20000 32736) 0x20000 NULL) 0x20000 NULL,
    rootMemNode := 0x20000, memUsed := emptyHeap.memUsed - 32736 * 4096 }

theorem run_refilled : ∃ history c, Run smallestImage history c ∧ history.length = 2 ∧
    ∀ t ∈ history, KeepsPages smallestImage t := by
  have halloc : allocPage 1 bootHeap 32736 = some (emptyHeap, 0x20000) := rfl
  have hfree : freePage 1 emptyHeap 0x20000 32736 = some refilledHeap := rfl
  have h1 := Step.alloc (c := ⟨bootHeap, []⟩) (n := 32736) 1 (by decide) halloc
  have h2 : Step ⟨emptyHeap, [] ++ ⟨0x20000, 32736⟩ :: []⟩ (.freePage ⟨0x20000, 32736⟩)
      ⟨refilledHeap, []⟩ := .free 1 hfree
  have hr := Run.step (Run.step (Run.init (k := smallestImage) fun _ => 0) h1) h2
  refine ⟨_, _, hr, rfl, (run_keepsPages_iff hr).mpr ?_⟩
  intro t ht b hb
  simp only [List.mem_cons, List.not_mem_nil, or_false] at ht
  rcases ht with rfl | rfl
  · rfl
  · cases hb

end MetalNes.PageLoss
