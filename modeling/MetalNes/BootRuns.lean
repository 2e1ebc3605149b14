import MetalNes.HeapAtRest
import MetalNes.SmallObjects

namespace MetalNes.Liballoc

open ByteWords PageChunks
open PageRuns (Block freeSet region smallestImage)
open Segments Tilings

variable {k : KernelImage} {mem : Bytes} {pagesFuel : Nat} {steps : List (Call × Config Pages)} {c : Config Pages}

/-- From boot on the tags fill the pages of the heap, the list of each index has the free
tags of that index, no two free neighbours stay apart, and the whole runs are counted. -/
theorem boot_heap_sound (hrun : BootRun k mem pagesFuel steps) (hc : c ∈ steps.map Prod.snd) :
    ∃ runs : List PageRun, PagesOwned k c.heap.below c.heap.mem (runs.map PageRun.block) ∧
      (∀ r ∈ runs, Tiles BitVec.toNat (Fields.len (get c.heap.mem)) r.block.addr.toNat r.tags r.stop ∧
        Separated (Fields.Free (get c.heap.mem)) r.tags) ∧
      (∀ i, 0 ≤ i → i < 32 → ∃ tags,
        Whole NULL (get c.heap.mem · .next) (get c.heap.mem · .prev) ((initLists c.heap).freePages i) tags ∧
        ∀ t, t ∈ tags ↔ t ∈ allTags runs ∧ indexOf c.heap.mem t = i) ∧
      (∀ t ∈ allTags runs, indexOf c.heap.mem t ≠ -1 →
        indexOf c.heap.mem t = bucketOf (get c.heap.mem t .realSize - sizeofTag)) ∧
      (∀ i, 0 ≤ i → i < 32 → (initLists c.heap).completePages i = runs.countP (wholeAt (get c.heap.mem) i) ∧
        (initLists c.heap).completePages i ≤ MAXCOMPLETE) ∧
      ∀ o, o ∈ c.live ↔
        ∃ t ∈ allTags runs, indexOf c.heap.mem t = -1 ∧ o = ⟨t + sizeofTag, get c.heap.mem t .size⟩ := by
  obtain ⟨runs, chain, hs, ho⟩ := (hrun.ready hc).inv
  rw [(initLists_mem c.heap).1, (initLists_mem c.heap).2] at ho
  rw [Heap.Good, (initLists_mem c.heap).1] at hs
  refine ⟨runs, ho, fun r hr => ⟨(hs.shape.run_shape r hr).tiles, hs.coalesced r hr⟩, fun i h0 h32 => ?_, hs.graded,
    fun i h0 h32 => ⟨hs.counted i h0 h32, hs.bounded i h0 h32⟩, fun o => ?_⟩
  · exact ⟨chain i, hs.shape.buckets.linked i h0 h32, hs.shape.buckets.mem_iff i h0 h32⟩
  · rw [hs.owned o]
    constructor
    · rintro ⟨t, ht, -, hidle, rfl⟩
      exact ⟨t, ht, hidle, rfl⟩
    · rintro ⟨t, ht, hidle, rfl⟩
      exact ⟨t, ht, Option.some_ne_none t, hidle, rfl⟩

theorem boot_heap_sound_first : ∃ h₁ h₂ h₃, BootRun smallestImage (fun _ => 0) 1 (secondSteps h₁ h₂ h₃) ∧
    ∃ runs : List PageRun, PagesOwned smallestImage h₃.below h₃.mem (runs.map PageRun.block) ∧
      ∀ o, o ∈ threeObjects ↔
        ∃ t ∈ allTags runs, indexOf h₃.mem t = -1 ∧ o = ⟨t + sizeofTag, get h₃.mem t .size⟩ := by
  obtain ⟨h₁, h₂, h₃, -, -, hrun⟩ := bootRun_second
  have hlast : ⟨h₃, threeObjects⟩ ∈ (secondSteps h₁ h₂ h₃).map Prod.snd :=
    List.mem_cons_of_mem _ (List.mem_cons_of_mem _ List.mem_cons_self)
  obtain ⟨runs, ho, -, -, -, -, hlive⟩ := boot_heap_sound hrun hlast
  exact ⟨h₁, h₂, h₃, hrun, runs, ho, hlive⟩

/-- From boot on the objects of the kernel lie apart from each other, behind the kernel
image in the memory of the board, and apart from the pages that are free. -/
theorem boot_objects (hrun : BootRun k mem pagesFuel steps)
    (hc : c ∈ steps.map Prod.snd) : (c.live.Pairwise fun o p => Disjoint o.extent p.extent) ∧
      ∀ o ∈ c.live, k.kernelEnd.toNat + 32 ≤ o.ptr.toNat ∧ o.extent ⊆ region k ∧
        Disjoint o.extent (freeSet (c.heap.below.withMem c.heap.mem)) := by
  have hready := hrun.ready hc
  refine ⟨hready.inv.disjoint, fun o ho => ?_⟩
  obtain ⟨-, runs, chain, hs, others, howned⟩ := hready.of_mem ho
  obtain ⟨t, ht, -, -, hptr, -, -⟩ := hs.object_place ho
  obtain ⟨r, hr, htr⟩ := mem_allTags.mp ht
  obtain ⟨b, hb, hin⟩ := hs.object_in_run ho
  have hblock : ∀ d ∈ runs.map PageRun.block, d ∈ runs.map PageRun.block ++ others := fun d hd =>
    List.mem_append_left others hd
  have htag : t.toNat ∈ region k :=
    howned.exclusive.inside _ (hblock _ (List.mem_map_of_mem hr)) ((hs.shape.run_shape r hr).mem_extent htr)
  refine ⟨?_, fun a ha => howned.exclusive.inside b (hblock b hb) (hin a ha), ?_⟩
  · have hlow : k.kernelEnd.toNat ≤ t.toNat := htag.1
    omega
  · exact (howned.exclusive.free_apart b (hblock b hb)).mono_left hin

theorem boot_objects_first : ∃ h₁ h₂ h₃ heap : Heap Pages, BootRun smallestImage (fun _ => 0) 1
      [(.others, ⟨h₁, []⟩), (.others, ⟨h₂, []⟩), (.others, ⟨h₃, []⟩), (.malloc 100, ⟨heap, [⟨0x21020, 100⟩]⟩)] ∧
    h₂.mem 0x20010 = 7 ∧ Disjoint (Object.extent ⟨0x21020, 100⟩) (freeSet (heap.below.withMem heap.mem)) := by
  obtain ⟨h₁, h₂, h₃, heap, hwritten, hrun⟩ := bootRun_others
  have hlast : (⟨heap, [⟨0x21020, 100⟩]⟩ : Config Pages) ∈ [((.others, ⟨h₁, []⟩) : Call × Config Pages),
      (.others, ⟨h₂, []⟩), (.others, ⟨h₃, []⟩), (.malloc 100, ⟨heap, [⟨0x21020, 100⟩]⟩)].map Prod.snd :=
    List.mem_cons_of_mem _ (List.mem_cons_of_mem _ (List.mem_cons_of_mem _ List.mem_cons_self))
  exact ⟨h₁, h₂, h₃, heap, hrun, hwritten, ((boot_objects hrun hlast).2 _ List.mem_cons_self).2.2⟩

/-- What an object holds changes only by writes to it, as long as it stays out. -/
theorem boot_contents (hrun : BootRun k mem pagesFuel steps) (hc : c ∈ steps.map Prod.snd)
    {more : List (Call × Config Pages)} (hmore : Runs.Trace (Step (pageHooks pagesFuel) (PagesOwned k)) c more)
    {o : Object} (ho : o ∈ c.live) (hstay : ∀ x ∈ more, o ∈ x.2.live) {a : Nat} (ha : a ∈ o.extent)
    (hquiet : Runs.Meets (Quiet a) c more) : ∀ x ∈ more, x.2.heap.mem a = c.heap.mem a :=
  trace_stable (pageHooks_lawful k pagesFuel) (hrun.ready hc) hmore ho hstay ha hquiet

theorem boot_contents_first : ∃ heap heap' : Heap Pages, ∃ mem : Bytes,
    BootRun smallestImage (fun _ => 0) 1 (firstSteps heap heap') ∧
    Step (pageHooks 1) (PagesOwned smallestImage) ⟨heap, [⟨0x20020, 100⟩]⟩ (.writes {0x20020})
      ⟨{ heap with mem }, [⟨0x20020, 100⟩]⟩ ∧ mem 0x20020 = 7 ∧ mem 0x20021 = heap.mem 0x20021 := by
  obtain ⟨heap, heap', hvalues, hrun⟩ := bootRun_first
  have hwrite : Step (pageHooks 1) (PagesOwned smallestImage) ⟨heap, [⟨0x20020, 100⟩]⟩ (.writes {0x20020})
      ⟨{ heap with mem := fun a => if a = 0x20020 then 7 else heap.mem a }, [⟨0x20020, 100⟩]⟩ := by
    refine .writes _ (fun a ha => ⟨_, List.mem_cons_self, ?_⟩) fun a ha => if_neg ha
    rw [Set.mem_singleton_iff.mp ha]
    exact ⟨by decide, by decide⟩
  have hlive : (⟨0x20020, 100⟩ : Object) ∈ [(⟨0x20020, 100⟩ : Object)] := List.mem_cons_self
  have hkept := boot_contents hrun List.mem_cons_self (.cons hwrite (.nil _)) hlive
    (List.forall_mem_singleton.mpr hlive) (a := 0x20021) ⟨by decide, by decide⟩ ⟨?_, trivial⟩
  · exact ⟨heap, heap', _, hrun, hwrite, if_pos rfl, hkept _ List.mem_cons_self⟩
  · rintro bytes heq
    rw [← Call.writes.inj heq]
    decide

/-- allocPage never says that it has too few pages: malloc then hangs, and gives NULL only
where no free pages are left at all. -/
theorem boot_malloc_returns (hrun : BootRun k mem pagesFuel steps)
    (hc : c ∈ steps.map Prod.snd) {size : U32} (hsize : size.toNat + 32 < 2 ^ 32) :
    ((∃ pagesFuel fuel r, malloc (pageHooks pagesFuel) fuel c.heap size = some r) ↔
      (∃ t ≠ NULL, Loop.Returns (searchBody c.heap.mem size) ((initLists c.heap).freePages (bucketOf size)) t) ∨
        c.heap.below.rootMemNode = NULL ∨
        pagesFor size ≤ PageChunks.pageCount (words c.heap.mem) c.heap.below.rootMemNode) ∧
      ∀ pagesFuel fuel h', malloc (pageHooks pagesFuel) fuel c.heap size = some (h', NULL) →
        c.heap.below.rootMemNode = NULL := by
  obtain ⟨runs, chain, hs, ho⟩ := (hrun.ready hc).inv
  have hinit := initLists_initialized c.heap
  constructor
  · have hreturns : ∀ pagesFuel, (∃ fuel r, malloc (pageHooks pagesFuel) fuel c.heap size = some r) ↔ _ :=
      fun pagesFuel => by
        have hiff := malloc_returns_iff (pageHooks pagesFuel) size hs hinit
        simp only [malloc_initLists, (initLists_mem c.heap).1, (initLists_mem c.heap).2] at hiff
        exact hiff
    simp only [hreturns, exists_or, pageHooks_returns_iff]
    exact or_congr_left (exists_const _)
  · intro pagesFuel fuel h' hcall
    rw [← malloc_initLists] at hcall
    obtain ⟨below, mem', hnull⟩ := malloc_null (pageHooks_lawful k pagesFuel) hinit hs ho hsize hcall
    rw [(initLists_mem c.heap).2] at hnull
    exact pageHooks_null hnull

theorem boot_malloc_returns_first : ∃ heap heap', BootRun smallestImage (fun _ => 0) 1 (firstSteps heap heap') ∧
    ∃ (pagesFuel fuel : Nat) (r : Heap Pages × U32), malloc (pageHooks pagesFuel) fuel heap 100 = some r := by
  obtain ⟨heap, heap', hvalues, hrun⟩ := bootRun_first
  have hiff := (boot_malloc_returns hrun List.mem_cons_self (show (100 : U32).toNat + 32 < 2 ^ 32 by decide)).1
  refine ⟨heap, heap', hrun, hiff.mpr (Or.inr (Or.inr ?_))⟩
  rw [hvalues.root]
  exact hvalues.count

/-- malloc turns to the hook exactly where no free tag of the very index has room for the
object and one more tag; a larger tag of another index is not looked at. -/
theorem malloc_choice (hinit : h.initialized = true) (hs : h.Good runs chain live none)
    (hsize : size.toNat + 32 < 2 ^ 32) (hcall : malloc hooks fuel h size = some (h', p)) :
      ((∃ t ∈ allTags runs, Fields.idx (get h.mem) t = bucketOf size ∧ size.toNat + 64 ≤ Fields.len (get h.mem) t) →
        h'.below = h.below ∧ ∃ t ∈ allTags runs, Fields.idx (get h.mem) t = bucketOf size ∧
          size.toNat + 64 ≤ Fields.len (get h.mem) t ∧ p = t + sizeofTag) ∧
      ((∀ t ∈ allTags runs, Fields.idx (get h.mem) t = bucketOf size → Fields.len (get h.mem) t < size.toNat + 64) →
        ∃ q below mem, hooks.liballocAlloc h.below h.mem (pagesFor size) = some (q, below, mem) ∧
          h'.below = below ∧ p = if q = NULL then NULL else q + sizeofTag) := by
  obtain ⟨h8, h32⟩ := bucketOf_range size
  have hmem : ∀ t, t ∈ chain (bucketOf size) ↔ t ∈ allTags runs ∧ Fields.idx (get h.mem) t = bucketOf size :=
    hs.shape.buckets.mem_iff (bucketOf size) (by omega) h32
  have hfound := (malloc_found hooks size hs hinit).2 fuel _ hcall
  constructor
  · rintro ⟨u, hu, hidx, hroom⟩
    cases hfind : (chain (bucketOf size)).find? (fits h.mem size) with
    | none =>
        have hnone := List.find?_eq_none.mp hfind u ((hmem u).mpr ⟨hu, hidx⟩)
        exact absurd ((fits_iff hs hu hsize).mpr hroom) hnone
    | some t =>
        obtain ⟨ht, hidx⟩ := (hmem t).mp (List.mem_of_find?_eq_some hfind)
        have hroom := (fits_iff hs ht hsize).mp (List.find?_some hfind)
        have hne : t ≠ NULL := fun hnull => (hs.tag_fits ht).1.ne' (by rw [hnull]; rfl)
        rw [hfind, Option.getD_some, mallocFound, if_neg hne] at hfound
        have hresult := Option.some.inj hfound
        have hwhole : (takeTag h t (bucketOf size)).below = h.below := by
          simp only [takeTag]
          split_ifs <;> rfl
        obtain ⟨hbelow, hptr⟩ := carveTag_ptr (takeTag h t (bucketOf size)) t size
        rw [hresult] at hbelow hptr
        exact ⟨hbelow.trans hwhole, t, ht, hidx, hroom, hptr⟩
  · intro hall
    have hnone : (chain (bucketOf size)).find? (fits h.mem size) = none :=
      List.find?_eq_none.mpr fun t ht hfit => by
        obtain ⟨ht, hidx⟩ := (hmem t).mp ht
        have hsmall := hall t ht hidx
        have hbig := (fits_iff hs ht hsize).mp hfit
        omega
    rw [hnone, Option.getD_none, mallocFound, if_pos rfl, allocateNewTag, Option.map_map,
      Option.map_eq_some_iff] at hfound
    obtain ⟨⟨q, below, mem⟩, halloc, hresult⟩ := hfound
    refine ⟨q, below, mem, halloc, ?_⟩
    by_cases hnull : q = NULL
    · simp only [Function.comp_apply, if_pos hnull] at hresult
      obtain ⟨rfl, rfl⟩ := Prod.mk.inj hresult
      exact ⟨rfl, (if_pos hnull).symm⟩
    · simp only [Function.comp_apply, if_neg hnull] at hresult
      obtain ⟨hbelow, hptr⟩ := carveTag_ptr { h with mem := freshTag mem q size (pagesFor size), below } q size
      rw [hresult] at hbelow hptr
      exact ⟨hbelow, hptr.trans (if_neg hnull).symm⟩

/-- The rest of the pages of a small object is taken for the third one. -/
theorem malloc_choice_first : ∃ h₁ h₂ h₃, BootRun smallestImage (fun _ => 0) 1 (secondSteps h₁ h₂ h₃) ∧
    malloc (pageHooks 1) 2 h₂ 40000 = some (h₃, 0x30108) ∧ h₃.below = h₂.below ∧
    ∃ t, Fields.idx (get h₂.mem) t = bucketOf 40000 ∧ (0x30108 : U32) = t + sizeofTag := by
  obtain ⟨h₁, h₂, h₃, hcall, hvalue, hrun⟩ := bootRun_second
  have hsecond : ⟨h₂, [⟨0x30020, 200⟩, ⟨0x20020, 100⟩]⟩ ∈ (secondSteps h₁ h₂ h₃).map Prod.snd :=
    List.mem_cons_of_mem _ List.mem_cons_self
  obtain ⟨hinit, runs, chain, hs, -⟩ := (hrun.ready hsecond).of_mem List.mem_cons_self
  obtain ⟨hreuse, hnew⟩ := malloc_choice hinit hs (by decide) hcall
  have hfree : ∃ t ∈ allTags runs, Fields.idx (get h₂.mem) t = bucketOf 40000 ∧
      (40000 : U32).toNat + 64 ≤ Fields.len (get h₂.mem) t := by
    by_contra hnone
    obtain ⟨q, below, mem, halloc, -, hp⟩ := hnew fun t ht hidx =>
      Nat.lt_of_not_le fun hroom => hnone ⟨t, ht, hidx, hroom⟩
    rw [halloc] at hvalue
    obtain rfl : q = 0x40000 := Option.some.inj hvalue
    exact absurd hp (by decide)
  obtain ⟨hbelow, t, -, hidx, -, hp⟩ := hreuse hfree
  exact ⟨h₁, h₂, h₃, hrun, hcall, hbelow, t, hidx, hp⟩

end MetalNes.Liballoc
