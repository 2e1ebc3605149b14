import MetalNes.PageChunks
import MetalNes.RegionPool
import MetalNes.Segments
import Mathlib.Order.Interval.Set.Disjoint

namespace MetalNes.PageRuns

open PageChunks RegionPool

structure Block where
  addr : U32
  pages : U32

def Block.extent (b : Block) : Set Nat :=
  Set.Ico b.addr.toNat (b.addr.toNat + 4096 * b.pages.toNat)

def chunkExtent (mem : Memory) (chunk : U32) : Set Nat :=
  Set.Ico chunk.toNat (chunk.toNat + 4096 * (pageCount mem chunk).toNat)

inductive Reachable (s : Pmm) : U32 → Prop
  | root (h : s.rootMemNode ≠ NULL) : Reachable s s.rootMemNode
  | next {p : U32} (hp : Reachable s p) (h : next s.mem p ≠ NULL) : Reachable s (next s.mem p)

def initialPages (k : KernelImage) : U32 := (SYS_MEM * 1024 * 1024 - k.kernelEnd) / 4096

def region (k : KernelImage) : Set Nat :=
  Set.Ico k.kernelEnd.toNat (k.kernelEnd.toNat + 4096 * (initialPages k).toNat)

structure Config where
  heap : Pmm
  held : List Block

inductive Call
  | allocPage (numOfPages : U32)
  | freePage (b : Block)
  | callerWrites

/-- Completed calls. Between them callers may write any word that meets a block
they hold, and no other word. -/
inductive Step : Config → Call → Config → Prop
  | alloc {c : Config} {n p : U32} {s : Pmm} (fuel : Nat) (hn : n ≠ 0)
      (h : allocPage fuel c.heap n = some (s, p)) :
      Step c (.allocPage n) ⟨s, if p = NULL then c.held else ⟨p, n⟩ :: c.held⟩
  | free {heap s : Pmm} {pre post : List Block} {b : Block} (fuel : Nat)
      (h : freePage fuel heap b.addr b.pages = some s) :
      Step ⟨heap, pre ++ b :: post⟩ (.freePage b) ⟨s, pre ++ post⟩
  | write {c : Config} (mem : Memory)
      (h : ∀ a : U32, (∀ b ∈ c.held, Disjoint (Set.Ico a.toNat (a.toNat + 4)) b.extent) →
        mem a = c.heap.mem a) :
      Step c .callerWrites ⟨{ c.heap with mem }, c.held⟩

structure Transition where
  before : Config
  call : Call
  after : Config

/-- A run from init_pmm, with its history newest first. -/
inductive Run (k : KernelImage) : List Transition → Config → Prop
  | init (mem : Memory) : Run k [] ⟨initPmm k mem, []⟩
  | step {history : List Transition} {c c' : Config} {call : Call} (hr : Run k history c)
      (hs : Step c call c') : Run k (⟨c, call, c'⟩ :: history) c'

def freeSet (s : Pmm) : Set Nat := {x | ∃ p, Reachable s p ∧ x ∈ chunkExtent s.mem p}

def pool (c : Config) : Pool Nat Block := ⟨freeSet c.heap, c.held⟩

/-- The free list never has more than one chunk, and its links are empty. -/
structure SingleChunk (s : Pmm) : Prop where
  prev_eq : s.rootMemNode ≠ NULL → prev s.mem s.rootMemNode = NULL
  next_eq : s.rootMemNode ≠ NULL → next s.mem s.rootMemNode = NULL

theorem SingleChunk.reachable_iff {s : Pmm} (h : SingleChunk s) (p : U32) :
    Reachable s p ↔ s.rootMemNode ≠ NULL ∧ p = s.rootMemNode := by
  constructor
  · intro hp
    induction hp with
    | root hr => exact ⟨hr, rfl⟩
    | next _ hn ih =>
        obtain ⟨hr, rfl⟩ := ih
        exact absurd (h.next_eq hr) hn
  · rintro ⟨hr, rfl⟩
    exact .root hr

theorem SingleChunk.freeSet_null {s : Pmm} (h : SingleChunk s) (hr : s.rootMemNode = NULL) :
    freeSet s = ∅ := by
  ext x
  simp [freeSet, h.reachable_iff, hr]

theorem SingleChunk.freeSet_root {s : Pmm} (h : SingleChunk s) (hr : s.rootMemNode ≠ NULL) :
    freeSet s = chunkExtent s.mem s.rootMemNode := by
  ext x
  simp [freeSet, h.reachable_iff, hr]

theorem chunkExtent_sameHeader {mem mem' : Memory} {chunk : U32}
    (h : SameHeader mem mem' chunk) : chunkExtent mem' chunk = chunkExtent mem chunk := by
  rw [chunkExtent, h.pageCount_eq, chunkExtent]

theorem SingleChunk.sameHeader {s : Pmm} (h : SingleChunk s) (s' : Pmm)
    (hroot : s'.rootMemNode = s.rootMemNode)
    (hmem : s.rootMemNode ≠ NULL → SameHeader s.mem s'.mem s.rootMemNode) :
    SingleChunk s' ∧ freeSet s' = freeSet s := by
  have hs : SingleChunk s' := by
    constructor <;> intro hr <;> rw [hroot] at hr ⊢
    · rw [(hmem hr).prev_eq, h.prev_eq hr]
    · rw [(hmem hr).next_eq, h.next_eq hr]
  refine ⟨hs, ?_⟩
  by_cases hr : s.rootMemNode = NULL
  · rw [h.freeSet_null hr, hs.freeSet_null (hroot.trans hr)]
  · rw [h.freeSet_root hr, hs.freeSet_root (by rwa [hroot]), hroot, chunkExtent_sameHeader (hmem hr)]

structure Sound (k : KernelImage) (c : Config) : Prop where
  single : SingleChunk c.heap
  exclusive : Exclusive Block.extent (region k) (pool c)
  pages_pos : ∀ b ∈ c.held, b.pages ≠ 0
  block_aligned : ∀ b ∈ c.held, 4096 ∣ b.addr.toNat
  root_aligned : c.heap.rootMemNode ≠ NULL → 4096 ∣ c.heap.rootMemNode.toNat
  root_pos : c.heap.rootMemNode ≠ NULL → c.held ≠ [] → pageCount c.heap.mem c.heap.rootMemNode ≠ 0

theorem toNat_initialPages (k : KernelImage) :
    (initialPages k).toNat = (134217728 - k.kernelEnd.toNat) / 4096 := by
  have hm : SYS_MEM * 1024 * 1024 = 134217728#32 := by decide
  rw [initialPages, hm, BitVec.toNat_udiv, BitVec.toNat_sub_of_le]
  · rfl
  · exact k.end_le

theorem region_bounds (k : KernelImage) :
    0x20000 ≤ k.kernelEnd.toNat ∧
      k.kernelEnd.toNat + 4096 * (initialPages k).toNat ≤ 134217728 := by
  have h := k.end_le
  refine ⟨k.above, ?_⟩
  rw [toNat_initialPages]
  omega

theorem pages_in_region {k : KernelImage} {a n : U32}
    (h : Set.Ico a.toNat (a.toNat + 4096 * n.toNat) ⊆ region k) (hn : n ≠ 0) :
    k.kernelEnd.toNat ≤ a.toNat ∧
      a.toNat + 4096 * n.toNat ≤ k.kernelEnd.toNat + 4096 * (initialPages k).toNat := by
  have hpos : a.toNat < a.toNat + 4096 * n.toNat := by bv_omega
  exact (Set.Ico_subset_Ico_iff hpos).mp h

theorem pages_apart {a n b m : U32} (hn : n ≠ 0) (hm : m ≠ 0)
    (h : Disjoint (Set.Ico a.toNat (a.toNat + 4096 * n.toNat))
      (Set.Ico b.toNat (b.toNat + 4096 * m.toNat))) :
    a.toNat + 4096 * n.toNat ≤ b.toNat ∨ b.toNat + 4096 * m.toNat ≤ a.toNat := by
  rw [Set.Ico_disjoint_Ico] at h
  bv_omega

section Calls

variable {k : KernelImage} {c : Config}

theorem Sound.root_extent (hs : Sound k c) (hr : c.heap.rootMemNode ≠ NULL) :
    chunkExtent c.heap.mem c.heap.rootMemNode ⊆ region k := by
  rw [← hs.single.freeSet_root hr]
  exact hs.exclusive.free_inside

theorem Sound.block_bounds (hs : Sound k c) {b : Block} (hb : b ∈ c.held) :
    0x20000 ≤ b.addr.toNat ∧ b.addr.toNat + 4096 * b.pages.toNat ≤ 134217728 := by
  have h := pages_in_region (hs.exclusive.inside b hb) (hs.pages_pos b hb)
  have hk := region_bounds k
  omega

theorem Sound.block_addr_ne_null (hs : Sound k c) {b : Block} (hb : b ∈ c.held) : b.addr ≠ NULL := by
  have habove := (hs.block_bounds hb).1
  unfold NULL
  bv_omega

theorem Sound.block_apart_root (hs : Sound k c) (hr : c.heap.rootMemNode ≠ NULL) {b : Block}
    (hb : b ∈ c.held) :
    HeadersApart b.addr c.heap.rootMemNode ∧
      Disjoint b.extent (chunkExtent c.heap.mem c.heap.rootMemNode) := by
  have hd := hs.exclusive.free_apart b hb
  simp only [pool, hs.single.freeSet_root hr] at hd
  have hpc := hs.root_pos hr (List.ne_nil_of_mem hb)
  have hn := hs.pages_pos b hb
  have hroot := pages_in_region (hs.root_extent hr) hpc
  have hblock := hs.block_bounds hb
  have hk := region_bounds k
  refine ⟨?_, hd⟩
  have ha := pages_apart hn hpc hd
  unfold HeadersApart
  bv_omega

theorem allocPage_single {s s' : Pmm} {n p : U32} {fuel : Nat} (hr : s.rootMemNode ≠ NULL)
    (h : allocPage fuel s n = some (s', p)) :
    p = s.rootMemNode ∧
      (pageCount s.mem s.rootMemNode = n ∧ s' = takeChunk s n s.rootMemNode ∨
        n < pageCount s.mem s.rootMemNode ∧ s' = splitChunk s n s.rootMemNode) := by
  rw [allocPage, if_pos hr] at h
  have hret : Loop.Returns (allocBody s n) s.rootMemNode (s', p) := ⟨fuel, h⟩
  by_cases hle : n ≤ pageCount s.mem s.rootMemNode
  · by_cases heq : pageCount s.mem s.rootMemNode = n
    · have hb : allocBody s n s.rootMemNode =
          .done (takeChunk s n s.rootMemNode, s.rootMemNode) := by
        simp [allocBody, hr, heq]
      obtain ⟨rfl, rfl⟩ := Prod.mk.inj (hret.of_first hb)
      exact ⟨rfl, .inl ⟨heq, rfl⟩⟩
    · have hlt : n < pageCount s.mem s.rootMemNode := by bv_omega
      have hb : allocBody s n s.rootMemNode =
          .done (splitChunk s n s.rootMemNode, s.rootMemNode) := by
        simp [allocBody, hr, hle, heq, hlt]
      obtain ⟨rfl, rfl⟩ := Prod.mk.inj (hret.of_first hb)
      exact ⟨rfl, .inr ⟨hlt, rfl⟩⟩
  · have hb : allocBody s n s.rootMemNode = .next s.rootMemNode := by
      simp [allocBody, hr, hle]
    exact absurd hret (Loop.not_returns_of_stuck hb _)

/-- With chunks in the list, freePage completes only below the root, and leaves
the root where it is. -/
theorem freePage_below {s s' : Pmm} {a n : U32} {fuel : Nat} (hr : s.rootMemNode ≠ NULL)
    (ha : a ≠ NULL) (hn : n ≠ 0) (h : freePage fuel s a n = some s') :
    s' = { s with mem := insertChunk s.mem a n s.rootMemNode, memUsed := s.memUsed - n * 4096 } := by
  simp only [freePage, ha, hn, hr, ne_eq, not_false_eq_true, and_self, if_true,
    Option.map_map, Option.map_eq_some_iff] at h
  obtain ⟨mem, hrun, rfl⟩ := h
  have hret : Loop.Returns (freeBody s.mem a n) s.rootMemNode mem := ⟨fuel, hrun⟩
  by_cases hlt : a < s.rootMemNode
  · have hb : freeBody s.mem a n s.rootMemNode = .done (insertChunk s.mem a n s.rootMemNode) := by
      simp [freeBody, hr, hlt]
    rw [hret.of_first hb]
    rfl
  · have hb : freeBody s.mem a n s.rootMemNode = .next s.rootMemNode := by
      simp [freeBody, hr, hlt]
    exact absurd hret (Loop.not_returns_of_stuck hb _)

theorem freePage_empty {s s' : Pmm} {a n : U32} {fuel : Nat} (hr : s.rootMemNode = NULL)
    (ha : a ≠ NULL) (hn : n ≠ 0) (h : freePage fuel s a n = some s') :
    s' = { s with mem := setNext (setPrev (setPageCount s.mem a n) a NULL) a NULL,
                  rootMemNode := a, memUsed := s.memUsed - n * 4096 } := by
  simp only [freePage, ha, hn, hr, ne_eq, not_false_eq_true, and_self, if_true, not_true,
    if_false, Option.map_some, Option.some.injEq] at h
  exact h.symm

/-- Without a chunk before it, a freed chunk is merged by writes to its own header. -/
theorem mergeChunks_null_prior {mem : Memory} {a p : U32} (ha : HeadersApart a p) :
    SameHeader mem (mergeChunks mem NULL a p) p := by
  simp only [mergeChunks, ne_eq, not_true, false_and, if_false]
  split
  · exact (ha.setPageCount mem _).trans (ha.setNext _ _)
  · exact .refl mem p

theorem insertChunk_sameHeader {mem : Memory} {a n p : U32} (ha : HeadersApart a p)
    (hp : prev mem p = NULL) : SameHeader mem (insertChunk mem a n p) p := by
  have h : SameHeader mem (setNext (setPageCount mem a n) a p) p :=
    (ha.setPageCount mem n).trans (ha.setNext _ p)
  have h' := h.trans (ha.setPrev _ (prev (setNext (setPageCount mem a n) a p) p))
  have hnull := h'.prev_eq.trans hp
  simp only [insertChunk]
  rw [hnull]
  exact h'.trans (mergeChunks_null_prior ha)

theorem takeChunk_single {s : Pmm} {n : U32} (h : SingleChunk s) (hr : s.rootMemNode ≠ NULL) :
    takeChunk s n s.rootMemNode =
      { s with rootMemNode := NULL, memUsed := s.memUsed + n * 4096 } := by
  simp [takeChunk, h.prev_eq hr, h.next_eq hr]

theorem splitChunk_root {s : Pmm} {n : U32} (hprev : prev s.mem s.rootMemNode = NULL)
    (ha : HeadersApart (s.rootMemNode + n * 4096) s.rootMemNode) :
    splitChunk s n s.rootMemNode =
      { s with mem := splitHeader s.mem n s.rootMemNode, rootMemNode := s.rootMemNode + n * 4096,
               memUsed := s.memUsed + n * 4096 } := by
  have hnull := (splitHeader_sameHeader s.mem ha).prev_eq.trans hprev
  simp only [splitChunk]
  rw [if_neg (not_not_intro hnull)]

/-- What a completed allocPage call does to the free part: it gives out the
front of the only chunk, or nothing when there is no chunk. -/
theorem Sound.alloc_effect (hs : Sound k c) {s : Pmm} {n p : U32} {fuel : Nat} (hn : n ≠ 0)
    (h : allocPage fuel c.heap n = some (s, p)) :
    (p = NULL ∧ s = c.heap) ∨
      (p ≠ NULL ∧ SingleChunk s ∧ Block.extent ⟨p, n⟩ ⊆ freeSet c.heap ∧
        freeSet s = freeSet c.heap \ Block.extent ⟨p, n⟩ ∧ 4096 ∣ p.toNat ∧
        (s.rootMemNode ≠ NULL →
          4096 ∣ s.rootMemNode.toNat ∧ pageCount s.mem s.rootMemNode ≠ 0)) := by
  by_cases hr : c.heap.rootMemNode = NULL
  · left
    simpa [allocPage, hr, eq_comm, and_comm] using h
  · right
    have hfree := hs.single.freeSet_root hr
    have haligned := hs.root_aligned hr
    obtain ⟨rfl, ⟨hpc, rfl⟩ | ⟨hlt, rfl⟩⟩ := allocPage_single hr h
    · have hempty : SingleChunk
          { c.heap with rootMemNode := NULL, memUsed := c.heap.memUsed + n * 4096 } :=
        ⟨fun h => absurd rfl h, fun h => absurd rfl h⟩
      have hext : Block.extent ⟨c.heap.rootMemNode, n⟩ = freeSet c.heap := by
        rw [hfree, Block.extent, chunkExtent, hpc]
      rw [takeChunk_single hs.single hr]
      refine ⟨hr, hempty, hext.subset, ?_, haligned, fun h => absurd rfl h⟩
      rw [hempty.freeSet_null rfl, hext, Set.sdiff_self]
    · have hpc : pageCount c.heap.mem c.heap.rootMemNode ≠ 0 := by bv_omega
      have hb := pages_in_region (hs.root_extent hr) hpc
      have hk := region_bounds k
      have hapart : HeadersApart (c.heap.rootMemNode + n * 4096) c.heap.rootMemNode := by
        unfold HeadersApart
        bv_omega
      obtain ⟨hcount, hprev, hnext⟩ := splitHeader_new c.heap.mem hapart
      have hroot : c.heap.rootMemNode + n * 4096 ≠ NULL := by
        unfold NULL
        bv_omega
      have haddr : (c.heap.rootMemNode + n * 4096).toNat =
          c.heap.rootMemNode.toNat + 4096 * n.toNat := by
        bv_omega
      rw [splitChunk_root (hs.single.prev_eq hr) hapart]
      have hsingle : SingleChunk { c.heap with
          mem := splitHeader c.heap.mem n c.heap.rootMemNode,
          rootMemNode := c.heap.rootMemNode + n * 4096, memUsed := c.heap.memUsed + n * 4096 } :=
        ⟨fun _ => hprev.trans (hs.single.prev_eq hr), fun _ => hnext.trans (hs.single.next_eq hr)⟩
      refine ⟨hr, hsingle, ?_, ?_, haligned, fun _ => ⟨?_, ?_⟩⟩
      · rw [hfree, Block.extent, chunkExtent]
        exact Set.Ico_subset_Ico_right (by bv_omega)
      · rw [hsingle.freeSet_root hroot, hfree]
        ext x
        simp only [chunkExtent, Block.extent, hcount, haddr, Set.mem_Ico, Set.mem_sdiff]
        bv_omega
      · rw [haddr]
        exact Nat.dvd_add haligned (Nat.dvd_mul_right _ _)
      · rw [hcount]
        bv_omega

/-- What a completed freePage call does to the free part: everything is free
again when the list was empty, and nothing when it was not. -/
theorem free_effect {heap s : Pmm} {pre post : List Block} {b : Block} {fuel : Nat}
    (hs : Sound k ⟨heap, pre ++ b :: post⟩) (h : freePage fuel heap b.addr b.pages = some s) :
    (heap.rootMemNode = NULL ∧ SingleChunk s ∧ freeSet s = b.extent ∧ s.rootMemNode = b.addr ∧
        pageCount s.mem b.addr = b.pages) ∨
      (heap.rootMemNode ≠ NULL ∧ SingleChunk s ∧ freeSet s = freeSet heap ∧
        s.rootMemNode = heap.rootMemNode ∧ SameHeader heap.mem s.mem heap.rootMemNode) := by
  have hmem : b ∈ pre ++ b :: post := by simp
  have hn := hs.pages_pos b hmem
  have ha := hs.block_addr_ne_null hmem
  by_cases hr : heap.rootMemNode = NULL
  · left
    obtain rfl := freePage_empty hr ha hn h
    have hsingle : SingleChunk { heap with
        mem := setNext (setPrev (setPageCount heap.mem b.addr b.pages) b.addr NULL) b.addr NULL,
        rootMemNode := b.addr, memUsed := heap.memUsed - b.pages * 4096 } :=
      ⟨fun _ => by simp, fun _ => by simp⟩
    refine ⟨hr, hsingle, ?_, rfl, by simp⟩
    rw [hsingle.freeSet_root ha, Block.extent, chunkExtent]
    simp
  · right
    obtain rfl := freePage_below hr ha hn h
    have hheader := insertChunk_sameHeader (n := b.pages) (hs.block_apart_root hr hmem).1
      (hs.single.prev_eq hr)
    obtain ⟨hsingle, hfree⟩ := hs.single.sameHeader { heap with
      mem := insertChunk heap.mem b.addr b.pages heap.rootMemNode,
      memUsed := heap.memUsed - b.pages * 4096 } rfl (fun _ => hheader)
    exact ⟨hr, hsingle, hfree, rfl, hheader⟩

theorem Sound.write_header (hs : Sound k c) {mem : Memory}
    (h : ∀ a : U32, (∀ b ∈ c.held, Disjoint (Set.Ico a.toNat (a.toNat + 4)) b.extent) →
      mem a = c.heap.mem a) (hr : c.heap.rootMemNode ≠ NULL) :
    SameHeader c.heap.mem mem c.heap.rootMemNode := by
  have hword : ∀ a : U32, c.heap.rootMemNode.toNat ≤ a.toNat →
      a.toNat + 4 ≤ c.heap.rootMemNode.toNat + 12 → mem a = c.heap.mem a := by
    intro a hlo hhi
    apply h
    intro b hb
    have hpc := hs.root_pos hr (List.ne_nil_of_mem hb)
    refine ((hs.block_apart_root hr hb).2.mono_right ?_).symm
    exact Set.Ico_subset_Ico hlo (by bv_omega)
  by_cases hheld : c.held = []
  · have hall : ∀ a, mem a = c.heap.mem a := fun a => h a (by simp [hheld])
    exact ⟨hall _, hall _, hall _⟩
  · have hb := pages_in_region (hs.root_extent hr) (hs.root_pos hr hheld)
    have hk := region_bounds k
    refine ⟨hword _ le_rfl (by omega), ?_, ?_⟩
    · exact hword _ (by bv_omega) (by bv_omega)
    · exact hword _ (by bv_omega) (by bv_omega)

end Calls

theorem initPmm_root (k : KernelImage) (mem : Memory) :
    SingleChunk (initPmm k mem) ∧ (initPmm k mem).rootMemNode = k.kernelEnd ∧
      pageCount (initPmm k mem).mem k.kernelEnd = initialPages k := by
  refine ⟨⟨fun _ => ?_, fun _ => ?_⟩, rfl, ?_⟩
  · simp [initPmm]
  · simp [initPmm]
  · simp [initPmm, initialPages]

theorem KernelImage.end_ne_null (k : KernelImage) : k.kernelEnd ≠ NULL := by
  have h := k.above
  unfold NULL
  bv_omega

theorem freeSet_init (k : KernelImage) (mem : Memory) : freeSet (initPmm k mem) = region k := by
  obtain ⟨hsingle, hroot, hcount⟩ := initPmm_root k mem
  rw [hsingle.freeSet_root (by rw [hroot]; exact KernelImage.end_ne_null k), hroot, chunkExtent,
    hcount, region]

theorem Sound.init (k : KernelImage) (mem : Memory) : Sound k ⟨initPmm k mem, []⟩ where
  single := (initPmm_root k mem).1
  exclusive := ⟨.nil, by simp [pool], (freeSet_init k mem).subset, by simp [pool]⟩
  pages_pos := by simp
  block_aligned := by simp
  root_aligned := fun _ => k.aligned
  root_pos := fun _ h => absurd rfl h

section Runs

variable {k : KernelImage} {c c' : Config} {call : Call}

/-- The concrete list refines the pool: each completed call is one of its moves. -/
theorem Sound.refines (hs : Sound k c) (h : Step c call c') :
    pool c' = pool c ∨ RegionPool.Step Block.extent (pool c) (pool c') := by
  cases h with
  | @alloc _ n p s fuel hn h =>
      rcases hs.alloc_effect hn h with ⟨rfl, rfl⟩ | ⟨hp, _, hsub, hfree, _⟩
      · exact .inl rfl
      · right
        simp only [pool, if_neg hp]
        exact .grant (Block.mk p n) (freeSet s) hsub hfree.subset
  | @free heap s pre post b fuel h =>
      right
      rcases free_effect hs h with ⟨_, _, hfree, _⟩ | ⟨_, _, hfree, _⟩
      · exact .release _ _ pre post b (hfree ▸ Set.subset_union_right)
      · exact .release _ _ pre post b (hfree ▸ Set.subset_union_left)
  | write mem h =>
      left
      have hsame := hs.single.sameHeader { c.heap with mem } rfl (hs.write_header h)
      simp only [pool, hsame.2]

theorem Sound.step (hs : Sound k c) (h : Step c call c') : Sound k c' := by
  have hexclusive : Exclusive Block.extent (region k) (pool c') := by
    rcases hs.refines h with he | hstep
    · rw [he]; exact hs.exclusive
    · exact hs.exclusive.step hstep
  cases h with
  | @alloc _ n p s fuel hn h =>
      rcases hs.alloc_effect hn h with ⟨rfl, rfl⟩ | ⟨hp, hsingle, _, _, haligned, hroot⟩
      · exact hs
      · simp only [if_neg hp] at hexclusive ⊢
        refine ⟨hsingle, hexclusive, ?_, ?_, fun hr => (hroot hr).1, fun hr _ => (hroot hr).2⟩
        · intro b hb
          rcases List.mem_cons.mp hb with rfl | hb
          · exact hn
          · exact hs.pages_pos b hb
        · intro b hb
          rcases List.mem_cons.mp hb with rfl | hb
          · exact haligned
          · exact hs.block_aligned b hb
  | @free heap s pre post b fuel h =>
      have hkeep : ∀ d ∈ pre ++ post, d ∈ pre ++ b :: post := fun d hd =>
        Segments.mem_inserted.mpr (Or.inr hd)
      have hpages : ∀ d ∈ pre ++ post, d.pages ≠ 0 := fun d hd => hs.pages_pos d (hkeep d hd)
      have haligned : ∀ d ∈ pre ++ post, 4096 ∣ d.addr.toNat :=
        fun d hd => hs.block_aligned d (hkeep d hd)
      rcases free_effect hs h with ⟨_, hsingle, _, hroot, hcount⟩ | ⟨hr, hsingle, _, hroot, hheader⟩
      · refine ⟨hsingle, hexclusive, hpages, haligned, fun _ => ?_, fun _ _ => ?_⟩
        · rw [hroot]; exact hs.block_aligned b (by simp)
        · rw [hroot, hcount]; exact hs.pages_pos b (by simp)
      · refine ⟨hsingle, hexclusive, hpages, haligned, fun _ => ?_, fun _ _ => ?_⟩
        · rw [hroot]; exact hs.root_aligned hr
        · rw [hroot, hheader.pageCount_eq]; exact hs.root_pos hr (by simp)
  | write mem h =>
      have hheader := hs.write_header h
      have hsame := hs.single.sameHeader { c.heap with mem } rfl hheader
      refine ⟨hsame.1, hexclusive, hs.pages_pos, hs.block_aligned, hs.root_aligned, ?_⟩
      intro hr hheld
      rw [(hheader hr).pageCount_eq]
      exact hs.root_pos hr hheld

theorem Run.sound {history : List Transition} (hr : Run k history c) : Sound k c := by
  induction hr with
  | init mem => exact .init k mem
  | step _ hs ih => exact ih.step hs

theorem Sound.tail {s : Pmm} {b : Block} {held : List Block} (h : Sound k ⟨s, b :: held⟩) : Sound k ⟨s, held⟩ where
  single := h.single
  exclusive := ⟨(List.pairwise_cons.mp h.exclusive.apart).2,
    fun d hd => h.exclusive.inside d (List.mem_cons_of_mem b hd), h.exclusive.free_inside,
    fun d hd => h.exclusive.free_apart d (List.mem_cons_of_mem b hd)⟩
  pages_pos := fun d hd => h.pages_pos d (List.mem_cons_of_mem b hd)
  block_aligned := fun d hd => h.block_aligned d (List.mem_cons_of_mem b hd)
  root_aligned := h.root_aligned
  root_pos := fun hr _ => h.root_pos hr (List.cons_ne_nil b held)

/-- Outstanding blocks are pairwise disjoint, lie inside the initial region and
meet no chunk of the free list. -/
structure BlocksExclusive (k : KernelImage) (c : Config) : Prop where
  disjoint : c.held.Pairwise fun b d => Disjoint b.extent d.extent
  inside : ∀ b ∈ c.held, b.extent ⊆ region k
  off_list : ∀ b ∈ c.held, ∀ p, Reachable c.heap p → Disjoint b.extent (chunkExtent c.heap.mem p)

theorem run_blocksExclusive {history : List Transition} (hr : Run k history c) :
    BlocksExclusive k c := by
  have h := hr.sound.exclusive
  refine ⟨h.apart, h.inside, ?_⟩
  intro b hb p hp
  have hsub : chunkExtent c.heap.mem p ⊆ freeSet c.heap := fun x hx => ⟨p, hp, hx⟩
  exact (h.free_apart b hb).mono_right hsub

end Runs

def smallestImage : KernelImage := ⟨0x20000, by decide, by decide, by decide⟩

def bootHeap : Pmm := initPmm smallestImage fun _ => 0

def takenHeap : Pmm := splitChunk bootHeap 1 0x20000

theorem run_taken : Run smallestImage
    [⟨⟨bootHeap, []⟩, .allocPage 1, ⟨takenHeap, [⟨0x20000, 1⟩]⟩⟩] ⟨takenHeap, [⟨0x20000, 1⟩]⟩ := by
  have h : allocPage 1 bootHeap 1 = some (takenHeap, 0x20000) := rfl
  have hs := Step.alloc (c := ⟨bootHeap, []⟩) (n := 1) 1 (by decide) h
  exact .step (.init _) hs

/-- A page is taken and given back, then two blocks are taken. -/
theorem run_mixed : ∃ history s, history.map Transition.call =
      [.allocPage 1, .allocPage 2, .freePage ⟨0x20000, 1⟩, .allocPage 1] ∧
    Run smallestImage history ⟨s, [⟨0x23000, 1⟩, ⟨0x21000, 2⟩]⟩ := by
  have hvalues : ((freePage 1 takenHeap 0x20000 1).bind fun s₁ => (allocPage 1 s₁ 2).bind fun r =>
      (allocPage 1 r.1 1).map fun q => (r.2, q.2)) = some (0x21000, 0x23000) := by
    decide +kernel
  obtain ⟨s₁, hfree, hvalues⟩ := Option.bind_eq_some_iff.mp hvalues
  obtain ⟨⟨s₂, p⟩, halloc, hvalues⟩ := Option.bind_eq_some_iff.mp hvalues
  obtain ⟨⟨s₃, q⟩, hagain, hvalue⟩ := Option.map_eq_some_iff.mp hvalues
  obtain ⟨rfl, rfl⟩ := Prod.mk.inj hvalue
  have hback : Step ⟨takenHeap, [] ++ ⟨0x20000, 1⟩ :: []⟩ (.freePage ⟨0x20000, 1⟩) ⟨s₁, [] ++ []⟩ := .free 1 hfree
  have htwo : Step ⟨s₁, []⟩ (.allocPage 2) _ := .alloc 1 (by decide) halloc
  rw [if_neg (by decide)] at htwo
  have hone : Step ⟨s₂, [⟨0x21000, 2⟩]⟩ (.allocPage 1) _ := .alloc 1 (by decide) hagain
  rw [if_neg (by decide)] at hone
  exact ⟨_, s₃, rfl, ((run_taken.step hback).step htwo).step hone⟩

theorem run_mixed_blocksExclusive : ∃ history s, history.map Transition.call =
      [.allocPage 1, .allocPage 2, .freePage ⟨0x20000, 1⟩, .allocPage 1] ∧
    Run smallestImage history ⟨s, [⟨0x23000, 1⟩, ⟨0x21000, 2⟩]⟩ ∧
    BlocksExclusive smallestImage ⟨s, [⟨0x23000, 1⟩, ⟨0x21000, 2⟩]⟩ := by
  obtain ⟨history, s, hcalls, hrun⟩ := run_mixed
  exact ⟨history, s, hcalls, hrun, run_blocksExclusive hrun⟩

end MetalNes.PageRuns
