import MetalNes.HeapPages

namespace MetalNes.Liballoc

open ByteWords PageChunks
open PageRuns (Block freeSet region)

/-- The pages that the heap has out, beside those of other callers of the page allocator. -/
def PagesOwned (k : KernelImage) (s : Pages) (mem : Bytes) (held : List Block) : Prop :=
  ∃ others, PageRuns.Sound k ⟨s.withMem mem, held ++ others⟩

section Hooks

variable {k : KernelImage} {s s' : Pages} {mem mem' : Bytes} {held : List Block} {b : Block} {n p : U32} {fuel x : Nat}

theorem extent_word (hb : 4096 ∣ b.addr.toNat) (hx : x ∈ b.extent) : 4 * (x / 4) ∈ b.extent := by
  obtain ⟨hlo, hhi⟩ := hx
  exact ⟨by omega, by omega⟩

theorem bytesOf_outside {w : Memory} {S : Set Nat} (hsame : ∀ a : U32, a.toNat ∉ S → w a = words mem a)
    (hx : 4 * (x / 4) ∉ S) : bytesOf w mem x = mem x := by
  by_cases hbig : x < 2 ^ 32
  · have hword : (BitVec.ofNat 32 (4 * (x / 4))).toNat = 4 * (x / 4) := Nat.mod_eq_of_lt (by omega)
    exact bytesOf_frame (hsame _ (by rwa [hword]))
  · rw [bytesOf, if_neg hbig]

theorem owned_stored {t : Pmm} (hs : PageRuns.Sound k ⟨t, held⟩) (mem : Bytes) :
    PageRuns.Sound k ⟨(pagesIn t).withMem (bytesOf t.mem mem), held⟩ :=
  pages_reread hs fun _ ha => words_bytesOf ha

theorem pageHooks_lawful (k : KernelImage) (fuel : Nat) : Lawful (pageHooks fuel) (PagesOwned k) where
  alloc := by
    rintro s s' m m' held n p ⟨others, hs⟩ hn hcall
    obtain ⟨⟨t, q⟩, halloc, hreturn⟩ := Option.map_eq_some_iff.mp hcall
    obtain ⟨rfl, hrest⟩ := Prod.mk.inj hreturn
    obtain ⟨rfl, rfl⟩ := Prod.mk.inj hrest
    constructor
    · intro b hb a ha
      have hmem : b ∈ held ++ others := List.mem_append_left others hb
      refine bytesOf_outside (fun w hw => alloc_frame hs hn halloc hw) fun hin => ?_
      exact Set.disjoint_left.mp (hs.exclusive.free_apart b hmem) (extent_word (hs.block_aligned b hmem) ha) hin
    · have hstep := hs.step (.alloc fuel hn halloc)
      by_cases hnull : q = NULL
      · rw [if_pos hnull] at hstep
        exact Or.inl ⟨hnull, others, owned_stored hstep m⟩
      · rw [if_neg hnull] at hstep
        exact Or.inr ⟨hnull, others, owned_stored hstep m⟩
  free := by
    rintro s s' m m' pre b post ⟨others, hs⟩ hcall
    obtain ⟨t, hfree, hreturn⟩ := Option.map_eq_some_iff.mp hcall
    obtain ⟨rfl, rfl⟩ := Prod.mk.inj hreturn
    rw [List.append_assoc, List.cons_append] at hs
    constructor
    · intro c hc a ha
      have hmem : c ∈ pre ++ (post ++ others) := by
        rw [← List.append_assoc]
        exact List.mem_append_left others hc
      have hold : c ∈ pre ++ b :: (post ++ others) := Segments.mem_inserted.mpr (Or.inr hmem)
      refine bytesOf_outside (fun w hw => free_frame hs hfree hw) fun hin => ?_
      exact Set.disjoint_left.mp (hs.exclusive.apart_middle c hmem) hin (extent_word (hs.block_aligned c hold) ha)
    · refine ⟨others, ?_⟩
      rw [List.append_assoc]
      exact owned_stored (hs.step (.free fuel hfree)) m
  write := by
    rintro s m m' held ⟨others, hs⟩ hmem
    refine ⟨others, hs.step (.write (words m') fun a ha => ?_)⟩
    refine load_congr fun i hi => hmem _ fun b hb hin => ?_
    exact Set.disjoint_left.mp (ha b (List.mem_append_left others hb)) ⟨by omega, by omega⟩ hin
  disjoint := by
    rintro s m held ⟨others, hs⟩
    exact (List.pairwise_append.mp hs.exclusive.apart).1
  fits := by
    rintro s m held ⟨others, hs⟩ b hb
    have hbounds := hs.block_bounds (List.mem_append_left others hb)
    omega

end Hooks

/-- The heap behind init_pmm, with the statics as the image has them. -/
def bootHeap (k : KernelImage) (mem : Bytes) : Heap Pages where
  mem := bytesOf (initPmm k (words mem)).mem mem
  freePages := fun _ => NULL
  completePages := fun _ => 0
  initialized := false
  below := pagesIn (initPmm k (words mem))

theorem bootHeap_owned (k : KernelImage) (mem : Bytes) :
    PagesOwned k (bootHeap k mem).below (bootHeap k mem).mem [] :=
  ⟨[], owned_stored (PageRuns.Sound.init k (words mem)) mem⟩

/-- Calls, writes and steps of other code, from there on. -/
def BootRun (k : KernelImage) (mem : Bytes) (pagesFuel : Nat) (steps : List (Call × Config Pages)) : Prop :=
  Runs.Trace (Step (pageHooks pagesFuel) (PagesOwned k)) ⟨bootHeap k mem, []⟩ steps

section Boot

variable {k : KernelImage} {mem : Bytes} {pagesFuel : Nat} {steps : List (Call × Config Pages)} {c : Config Pages}

theorem BootRun.ready (hrun : BootRun k mem pagesFuel steps) (hc : c ∈ steps.map Prod.snd) :
    Ready (PagesOwned k) c := by
  obtain ⟨x, hmem, rfl⟩ := List.mem_map.mp hc
  exact trace_ready (pageHooks_lawful k pagesFuel) (ready_start rfl (bootHeap_owned k mem)) hrun x hmem

theorem allocPage_returns_iff {s : Pmm} {n : U32} :
    (∃ fuel r, allocPage fuel s n = some r) ↔ s.rootMemNode = NULL ∨ n ≤ PageChunks.pageCount s.mem s.rootMemNode := by
  constructor
  · rintro ⟨fuel, ⟨t, p⟩, hcall⟩
    by_cases hr : s.rootMemNode = NULL
    · exact Or.inl hr
    · obtain ⟨-, ⟨hcount, -⟩ | ⟨hlt, -⟩⟩ := PageRuns.allocPage_single hr hcall
      · exact Or.inr (by bv_omega)
      · exact Or.inr (by bv_omega)
  · intro hcases
    by_cases hr : s.rootMemNode = NULL
    · exact ⟨0, (s, NULL), by rw [allocPage, if_neg (not_not_intro hr)]⟩
    · have hle := hcases.resolve_left hr
      by_cases heq : PageChunks.pageCount s.mem s.rootMemNode = n
      · refine ⟨1, (takeChunk s n s.rootMemNode, s.rootMemNode), ?_⟩
        rw [allocPage, if_pos hr]
        exact Loop.run_done (by rw [allocBody, if_neg hr, if_pos hle, if_pos heq]) 0
      · have hlt : n < PageChunks.pageCount s.mem s.rootMemNode := by bv_omega
        refine ⟨1, (splitChunk s n s.rootMemNode, s.rootMemNode), ?_⟩
        rw [allocPage, if_pos hr]
        exact Loop.run_done (by rw [allocBody, if_neg hr, if_pos hle, if_neg heq, if_pos hlt]) 0

theorem pageHooks_returns_iff {s : Pages} {n : U32} :
    (∃ fuel r, (pageHooks fuel).liballocAlloc s mem n = some r) ↔
      s.rootMemNode = NULL ∨ n ≤ PageChunks.pageCount (words mem) s.rootMemNode := by
  refine Iff.trans ⟨?_, ?_⟩ (allocPage_returns_iff (s := s.withMem mem))
  · rintro ⟨fuel, r, hr⟩
    obtain ⟨a, halloc, -⟩ := Option.map_eq_some_iff.mp hr
    exact ⟨fuel, a, halloc⟩
  · rintro ⟨fuel, a, halloc⟩
    exact ⟨fuel, _, Option.map_eq_some_iff.mpr ⟨a, halloc, rfl⟩⟩

theorem pageHooks_null {s s' : Pages} {mem' : Bytes} {n : U32}
    (h : (pageHooks pagesFuel).liballocAlloc s mem n = some (NULL, s', mem')) : s.rootMemNode = NULL := by
  obtain ⟨⟨t, p⟩, halloc, hreturn⟩ := Option.map_eq_some_iff.mp h
  by_contra hr
  obtain ⟨rfl, -⟩ := PageRuns.allocPage_single hr halloc
  exact hr (Prod.mk.inj hreturn).1

end Boot

section Others

variable {k : KernelImage} {pagesFuel fuel : Nat} {c : Config Pages} {runs : List PageRun} {chain : Int → List U32}
variable {b : Block} {beside : List Block} {t : Pmm} {n p : U32}
variable (hgood : (initLists c.heap).Good runs chain c.live none)

include hgood

theorem others_alloc (hs : PageRuns.Sound k ⟨c.heap.below.withMem c.heap.mem, runs.map PageRun.block ++ beside⟩)
    (hn : n ≠ 0) (halloc : allocPage fuel (c.heap.below.withMem c.heap.mem) n = some (t, p)) :
    Step (pageHooks pagesFuel) (PagesOwned k) c .others
      ⟨{ c.heap with below := pagesIn t, mem := bytesOf t.mem c.heap.mem }, c.live⟩ := by
  have hcall : (pageHooks fuel).liballocAlloc c.heap.below c.heap.mem n =
      some (p, pagesIn t, bytesOf t.mem c.heap.mem) := Option.map_eq_some_iff.mpr ⟨_, halloc, rfl⟩
  obtain ⟨hkeep, ⟨-, howned⟩ | ⟨-, others, howned⟩⟩ := (pageHooks_lawful k fuel).alloc ⟨beside, hs⟩ hn hcall
  · exact .others _ _ hgood howned hkeep
  · exact .others _ _ hgood ⟨others, howned.tail⟩ hkeep

omit hgood in
theorem beside_write {s : Pages} {mem mem' : Bytes} {held : List Block}
    (hs : PageRuns.Sound k ⟨s.withMem mem, held ++ [b]⟩) (hmem : ∀ a ∉ b.extent, mem' a = mem a) :
    PageRuns.Sound k ⟨s.withMem mem', held ++ [b]⟩ := by
  have hlast : b ∈ held ++ [b] := List.mem_append_right _ (List.mem_singleton_self b)
  exact hs.step (.write (words mem') fun a ha => load_congr fun i hi => hmem _ fun hin =>
    Set.disjoint_left.mp (ha b hlast) ⟨by omega, by omega⟩ hin)

theorem others_write (hs : PageRuns.Sound k ⟨c.heap.below.withMem c.heap.mem, runs.map PageRun.block ++ [b]⟩)
    {mem : Bytes} (hmem : ∀ a ∉ b.extent, mem a = c.heap.mem a) :
    Step (pageHooks pagesFuel) (PagesOwned k) c .others ⟨{ c.heap with mem }, c.live⟩ := by
  refine .others _ _ hgood ⟨[b], beside_write hs hmem⟩ fun d hd a ha => hmem a fun hin => ?_
  have hapart := (List.pairwise_append.mp hs.exclusive.apart).2.2 d hd b (List.mem_singleton_self b)
  exact Set.disjoint_left.mp hapart ha hin

theorem others_free (hs : PageRuns.Sound k ⟨c.heap.below.withMem c.heap.mem, runs.map PageRun.block ++ [b]⟩)
    (hfree : freePage fuel (c.heap.below.withMem c.heap.mem) b.addr b.pages = some t) :
    Step (pageHooks pagesFuel) (PagesOwned k) c .others
      ⟨{ c.heap with below := pagesIn t, mem := bytesOf t.mem c.heap.mem }, c.live⟩ := by
  have hbeside : PagesOwned k c.heap.below c.heap.mem (runs.map PageRun.block ++ b :: []) :=
    ⟨[], by rwa [List.append_nil]⟩
  have hcall : (pageHooks fuel).liballocFree c.heap.below c.heap.mem b.addr b.pages =
      some (pagesIn t, bytesOf t.mem c.heap.mem) := Option.map_eq_some_iff.mpr ⟨t, hfree, rfl⟩
  obtain ⟨hkeep, hafter⟩ := (pageHooks_lawful k fuel).free hbeside hcall
  rw [List.append_nil] at hkeep hafter
  exact .others _ _ hgood hafter hkeep

end Others

/-- What the heap comes to after the first call. -/
structure FirstValues (heap : Heap Pages) : Prop where
  root : heap.below.rootMemNode = 0x30000
  count : 16 ≤ PageChunks.pageCount (words heap.mem) 0x30000
  calloc_eq : (calloc (pageHooks 1) 1 heap 5 20).map Prod.snd = some 0x30020
  realloc_eq : (realloc (pageHooks 1) 2 heap 0x20020 200).map Prod.snd = some 0x30020

def firstSteps (heap heap' : Heap Pages) : List (Call × Config Pages) :=
  [(.malloc 100, ⟨heap, [⟨0x20020, 100⟩]⟩), (.free 0x20020, ⟨heap', []⟩)]

theorem bootRun_first : ∃ heap heap', FirstValues heap ∧
    BootRun PageRuns.smallestImage (fun _ => 0) 1 (firstSteps heap heap') := by
  have hvalues : (malloc (pageHooks 1) 1 (bootHeap PageRuns.smallestImage fun _ => 0) 100).map
      (fun r => (r.2, r.1.below.rootMemNode, decide (16 ≤ PageChunks.pageCount (words r.1.mem) 0x30000),
        (calloc (pageHooks 1) 1 r.1 5 20).map Prod.snd, (realloc (pageHooks 1) 2 r.1 0x20020 200).map Prod.snd,
        (free (pageHooks 1) 2 r.1 r.2).isSome)) =
      some (0x20020, 0x30000, true, some 0x30020, some 0x30020, true) := by
    decide +kernel
  obtain ⟨⟨heap, p⟩, hmalloc, hvalue⟩ := Option.map_eq_some_iff.mp hvalues
  simp only [Prod.mk.injEq] at hvalue
  obtain ⟨rfl, hroot, hcount, hcalloc, hrealloc, hreturns⟩ := hvalue
  obtain ⟨heap', hfree⟩ := Option.isSome_iff_exists.mp hreturns
  have hstep : Step (pageHooks 1) (PagesOwned PageRuns.smallestImage)
      ⟨bootHeap PageRuns.smallestImage fun _ => 0, []⟩ (.malloc 100) _ := .malloc 1 (by decide) hmalloc
  rw [if_neg (by decide)] at hstep
  have hback : Step (pageHooks 1) (PagesOwned PageRuns.smallestImage) ⟨heap, [] ++ ⟨0x20020, 100⟩ :: []⟩
      (.free 0x20020) ⟨heap', [] ++ []⟩ := .free 2 hfree
  exact ⟨heap, heap', ⟨hroot, of_decide_eq_true hcount, hcalloc, hrealloc⟩, .cons hstep (.cons hback (.nil _))⟩

def threeObjects : List Object := [⟨0x30108, 40000⟩, ⟨0x30020, 200⟩, ⟨0x20020, 100⟩]

/-- The third object lies in the pages of the second. -/
def secondSteps (h₁ h₂ h₃ : Heap Pages) : List (Call × Config Pages) :=
  [(.malloc 100, ⟨h₁, [⟨0x20020, 100⟩]⟩), (.malloc 200, ⟨h₂, [⟨0x30020, 200⟩, ⟨0x20020, 100⟩]⟩),
    (.malloc 40000, ⟨h₃, threeObjects⟩)]

theorem bootRun_second : ∃ h₁ h₂ h₃, malloc (pageHooks 1) 2 h₂ 40000 = some (h₃, 0x30108) ∧
    ((pageHooks 1).liballocAlloc h₂.below h₂.mem (pagesFor 40000)).map Prod.fst = some 0x40000 ∧
    BootRun PageRuns.smallestImage (fun _ => 0) 1 (secondSteps h₁ h₂ h₃) := by
  have hvalues : ((malloc (pageHooks 1) 1 (bootHeap PageRuns.smallestImage fun _ => 0) 100).bind fun r =>
      (malloc (pageHooks 1) 2 r.1 200).bind fun q => (malloc (pageHooks 1) 2 q.1 40000).map fun u =>
        (r.2, q.2, u.2, ((pageHooks 1).liballocAlloc q.1.below q.1.mem (pagesFor 40000)).map Prod.fst)) =
      some (0x20020, 0x30020, 0x30108, some 0x40000) := by
    decide +kernel
  obtain ⟨⟨h₁, p₁⟩, hfirst, hvalues⟩ := Option.bind_eq_some_iff.mp hvalues
  obtain ⟨⟨h₂, p₂⟩, hsecond, hvalues⟩ := Option.bind_eq_some_iff.mp hvalues
  obtain ⟨⟨h₃, p₃⟩, hthird, hvalue⟩ := Option.map_eq_some_iff.mp hvalues
  simp only [Prod.mk.injEq] at hvalue
  obtain ⟨rfl, rfl, rfl, halloc⟩ := hvalue
  have hstep₁ : Step (pageHooks 1) (PagesOwned PageRuns.smallestImage)
      ⟨bootHeap PageRuns.smallestImage fun _ => 0, []⟩ (.malloc 100) _ := .malloc 1 (by decide) hfirst
  have hstep₂ : Step (pageHooks 1) (PagesOwned PageRuns.smallestImage) ⟨h₁, [⟨0x20020, 100⟩]⟩ (.malloc 200) _ :=
    .malloc 2 (by decide) hsecond
  have hstep₃ : Step (pageHooks 1) (PagesOwned PageRuns.smallestImage) ⟨h₂, [⟨0x30020, 200⟩, ⟨0x20020, 100⟩]⟩
      (.malloc 40000) _ := .malloc 2 (by decide) hthird
  rw [if_neg (by decide)] at hstep₁ hstep₂ hstep₃
  exact ⟨h₁, h₂, h₃, hthird, halloc, .cons hstep₁ (.cons hstep₂ (.cons hstep₃ (.nil _)))⟩

def emptyBoard : Heap Pages := bootHeap PageRuns.smallestImage fun _ => 0

/-- Another caller takes a page, writes to it and gives it back before the heap is set up. -/
theorem bootRun_others : ∃ h₁ h₂ h₃ heap : Heap Pages, h₂.mem 0x20010 = 7 ∧
    BootRun PageRuns.smallestImage (fun _ => 0) 1
      [(.others, ⟨h₁, []⟩), (.others, ⟨h₂, []⟩), (.others, ⟨h₃, []⟩), (.malloc 100, ⟨heap, [⟨0x21020, 100⟩]⟩)] := by
  have hvalues : ((allocPage 1 (emptyBoard.below.withMem emptyBoard.mem) 1).bind fun r =>
      (freePage 1 ((pagesIn r.1).withMem (Function.update (bytesOf r.1.mem emptyBoard.mem) 0x20010 7)) 0x20000 1).bind
        fun t => (malloc (pageHooks 1) 1 { emptyBoard with
          below := pagesIn t
          mem := bytesOf t.mem (Function.update (bytesOf r.1.mem emptyBoard.mem) 0x20010 7) } 100).map
            fun q => (r.2, q.2)) = some (0x20000, 0x21020) := by
    decide +kernel
  obtain ⟨⟨t₁, b⟩, halloc, hvalues⟩ := Option.bind_eq_some_iff.mp hvalues
  obtain ⟨t₃, hfree, hvalues⟩ := Option.bind_eq_some_iff.mp hvalues
  obtain ⟨⟨heap, p⟩, hmalloc, hvalue⟩ := Option.map_eq_some_iff.mp hvalues
  obtain ⟨rfl, rfl⟩ := Prod.mk.inj hvalue
  have hnone : ∀ {h : Heap Pages}, h.initialized = false → (initLists h).Good [] (fun _ => []) [] none := good_start
  have hboot : PageRuns.Sound PageRuns.smallestImage ⟨emptyBoard.below.withMem emptyBoard.mem, []⟩ :=
    owned_stored (PageRuns.Sound.init _ _) _
  have htaken := hboot.step (.alloc 1 (by decide) halloc)
  rw [if_neg (by decide)] at htaken
  have htaken := owned_stored htaken emptyBoard.mem
  have hother : ∀ a ∉ Block.extent ⟨0x20000, 1⟩,
      Function.update (bytesOf t₁.mem emptyBoard.mem) 0x20010 7 a = bytesOf t₁.mem emptyBoard.mem a := fun a ha =>
    Function.update_of_ne (by rintro rfl; exact ha ⟨by decide, by decide⟩) _ _
  have hwritten : PageRuns.Sound PageRuns.smallestImage ⟨(pagesIn t₁).withMem
      (Function.update (bytesOf t₁.mem emptyBoard.mem) 0x20010 7), [] ++ [⟨0x20000, 1⟩]⟩ := beside_write htaken hother
  have hstep₁ : Step (pageHooks 1) (PagesOwned PageRuns.smallestImage) ⟨emptyBoard, []⟩ .others _ :=
    others_alloc (hnone rfl) hboot (by decide) halloc
  have hstep₂ : Step (pageHooks 1) (PagesOwned PageRuns.smallestImage) _ .others _ :=
    others_write (c := ⟨{ emptyBoard with below := pagesIn t₁, mem := bytesOf t₁.mem emptyBoard.mem }, []⟩)
      (hnone rfl) htaken hother
  have hstep₃ : Step (pageHooks 1) (PagesOwned PageRuns.smallestImage) _ .others _ :=
    others_free (c := ⟨{ emptyBoard with
      below := pagesIn t₁, mem := Function.update (bytesOf t₁.mem emptyBoard.mem) 0x20010 7 }, []⟩)
      (hnone rfl) hwritten hfree
  have hstep₄ : Step (pageHooks 1) (PagesOwned PageRuns.smallestImage) ⟨_, []⟩ (.malloc 100) _ :=
    .malloc 1 (by decide) hmalloc
  rw [if_neg (by decide)] at hstep₄
  refine ⟨_, _, _, heap, ?_, .cons hstep₁ (.cons hstep₂ (.cons hstep₃ (.cons hstep₄ (.nil _))))⟩
  show Function.update (bytesOf t₁.mem emptyBoard.mem) 0x20010 7 0x20010 = 7
  rw [Function.update_self]

end MetalNes.Liballoc
