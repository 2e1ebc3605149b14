import MetalNes.HeapProgress

namespace MetalNes.Liballoc

open ByteWords PageChunks
open PageRuns (Block chunkExtent freeSet)

/-- The words that the page allocator sees in memory. -/
def words (mem : Bytes) : Memory := fun a => load mem a.toNat

/-- Memory with these words, as seen from addresses that are a multiple of four. -/
def bytesOf (w : Memory) (mem : Bytes) : Bytes := fun a =>
  if a < 2 ^ 32 then byteOf (w (BitVec.ofNat 32 (4 * (a / 4)))) (a % 4) else mem a

/-- The statics of pmm.c. -/
structure Pages where
  rootMemNode : U32
  memFree : U32
  memUsed : U32

def Pages.withMem (s : Pages) (mem : Bytes) : Pmm := ⟨words mem, s.rootMemNode, s.memFree, s.memUsed⟩

def pagesIn (s : Pmm) : Pages := ⟨s.rootMemNode, s.memFree, s.memUsed⟩

/-- The hooks in malloc.c. -/
def pageHooks (fuel : Nat) : Hooks Pages where
  liballocAlloc s mem pages := (allocPage fuel (s.withMem mem) pages).map fun (t, p) =>
    (p, pagesIn t, bytesOf t.mem mem)
  liballocFree s mem ptr pages := (freePage fuel (s.withMem mem) ptr pages).map fun t =>
    (pagesIn t, bytesOf t.mem mem)

section View

variable {w : Memory} {mem : Bytes} {a v : U32} {x : Nat}

theorem bytesOf_frame (h : w (BitVec.ofNat 32 (4 * (x / 4))) = words mem (BitVec.ofNat 32 (4 * (x / 4)))) :
    bytesOf w mem x = mem x := by
  rw [bytesOf]
  split_ifs with hx
  · have hword : (BitVec.ofNat 32 (4 * (x / 4))).toNat = 4 * (x / 4) := Nat.mod_eq_of_lt (by omega)
    rw [h, words, hword, byteOf_load _ _ _ (Nat.mod_lt _ (by decide)), Nat.div_add_mod]
  · rfl

theorem words_bytesOf (h : 4 ∣ a.toNat) : words (bytesOf w mem) a = w a := by
  have hlt := a.isLt
  have hbyte : ∀ i < 4, bytesOf w mem (a.toNat + i) = byteOf (w a) i := fun i hi => by
    have hdiv : 4 * ((a.toNat + i) / 4) = a.toNat := by omega
    have hmod : (a.toNat + i) % 4 = i := by omega
    rw [bytesOf, if_pos (by omega), hdiv, hmod, BitVec.ofNat_toNat, BitVec.setWidth_eq]
  have h0 := hbyte 0 (by decide)
  rw [Nat.add_zero] at h0
  rw [words, load, hbyte 3 (by decide), hbyte 2 (by decide), hbyte 1 (by decide), h0, byteOf_append]

end View

section Frames

variable {k : KernelImage} {c : PageRuns.Config} {heap s : Pmm} {n p : U32} {fuel : Nat}

theorem splitHeader_frame {mem : Memory} {chunk a : U32} (h0 : a ≠ chunk + n * 4096) (h4 : a ≠ chunk + n * 4096 + 4)
    (h8 : a ≠ chunk + n * 4096 + 8) : splitHeader mem n chunk a = mem a := by
  simp only [splitHeader, setPageCount, setPrev, setNext]
  rw [Function.update_of_ne h0, Function.update_of_ne h4, Function.update_of_ne h8]

theorem alloc_frame (hs : PageRuns.Sound k c) (hn : n ≠ 0) (h : allocPage fuel c.heap n = some (s, p)) {a : U32}
    (ha : a.toNat ∉ freeSet c.heap) : s.mem a = c.heap.mem a := by
  by_cases hr : c.heap.rootMemNode = NULL
  · have hsame : (c.heap, NULL) = (s, p) := by simpa [allocPage, hr] using h
    rw [← (Prod.mk.inj hsame).1]
  · obtain ⟨rfl, ⟨hpc, rfl⟩ | ⟨hlt, rfl⟩⟩ := PageRuns.allocPage_single hr h
    · rw [PageRuns.takeChunk_single hs.single hr]
    · have hpc : PageChunks.pageCount c.heap.mem c.heap.rootMemNode ≠ 0 := by bv_omega
      have hb := PageRuns.pages_in_region (hs.root_extent hr) hpc
      have hk := PageRuns.region_bounds k
      have hapart : HeadersApart (c.heap.rootMemNode + n * 4096) c.heap.rootMemNode := by
        unfold HeadersApart
        bv_omega
      rw [hs.single.freeSet_root hr, chunkExtent, Set.mem_Ico] at ha
      rw [PageRuns.splitChunk_root (hs.single.prev_eq hr) hapart]
      exact splitHeader_frame (by bv_omega) (by bv_omega) (by bv_omega)

theorem insertChunk_frame {mem : Memory} {addr chunk a : U32} (ha : HeadersApart addr chunk)
    (hprev : prev mem chunk = NULL) (h0 : a ≠ addr) (h4 : a ≠ addr + 4) (h8 : a ≠ addr + 8) :
    insertChunk mem addr n chunk a = mem a := by
  have hcount : SameHeader mem (setNext (setPageCount mem addr n) addr chunk) chunk :=
    (ha.setPageCount mem n).trans (ha.setNext _ chunk)
  have hlinked := hcount.trans (ha.setPrev _ (prev (setNext (setPageCount mem addr n) addr chunk) chunk))
  have hnull := hlinked.prev_eq.trans hprev
  have hheader : ∀ v, setPrev (setNext (setPageCount mem addr n) addr chunk) addr v a = mem a := fun v => by
    simp only [setPageCount, setPrev, setNext]
    rw [Function.update_of_ne h4, Function.update_of_ne h8, Function.update_of_ne h0]
  simp only [insertChunk]
  rw [hnull]
  simp only [mergeChunks, ne_eq, not_true, false_and, if_false]
  split_ifs
  · rw [setNext, Function.update_of_ne h8, setPageCount, Function.update_of_ne h0, hheader]
  · exact hheader _

theorem free_frame {pre post : List Block} {b : Block} (hs : PageRuns.Sound k ⟨heap, pre ++ b :: post⟩)
    (h : freePage fuel heap b.addr b.pages = some s) {a : U32} (ha : a.toNat ∉ b.extent) : s.mem a = heap.mem a := by
  have hmem : b ∈ pre ++ b :: post := List.mem_append_right pre List.mem_cons_self
  have hn := hs.pages_pos b hmem
  have hbounds := hs.block_bounds hmem
  have h0 : a ≠ b.addr := fun heq => ha ⟨by rw [heq], by bv_omega⟩
  have h4 : a ≠ b.addr + 4 := fun heq => ha ⟨by bv_omega, by bv_omega⟩
  have h8 : a ≠ b.addr + 8 := fun heq => ha ⟨by bv_omega, by bv_omega⟩
  by_cases hr : heap.rootMemNode = NULL
  · obtain rfl := PageRuns.freePage_empty hr (hs.block_addr_ne_null hmem) hn h
    simp only [setPageCount, setPrev, setNext]
    rw [Function.update_of_ne h8, Function.update_of_ne h4, Function.update_of_ne h0]
  · obtain rfl := PageRuns.freePage_below hr (hs.block_addr_ne_null hmem) hn h
    exact insertChunk_frame (hs.block_apart_root hr hmem).1 (hs.single.prev_eq hr) h0 h4 h8

/-- The header of the first free chunk is all that the page allocator goes by. -/
theorem pages_header (hs : PageRuns.Sound k c) {mem : Memory}
    (hheader : c.heap.rootMemNode ≠ NULL → SameHeader c.heap.mem mem c.heap.rootMemNode) :
    PageRuns.Sound k ⟨{ c.heap with mem }, c.held⟩ := by
  obtain ⟨hsingle, hfree⟩ := hs.single.sameHeader { c.heap with mem } rfl hheader
  refine ⟨hsingle, ?_, hs.pages_pos, hs.block_aligned, hs.root_aligned, fun hr hheld => ?_⟩
  · have hpool : PageRuns.pool ⟨{ c.heap with mem }, c.held⟩ = PageRuns.pool c := by
      simp only [PageRuns.pool, hfree]
    rw [hpool]
    exact hs.exclusive
  · rw [(hheader hr).pageCount_eq]
    exact hs.root_pos hr hheld

theorem pages_reread (hs : PageRuns.Sound k c) {mem : Memory} (hmem : ∀ a : U32, 4 ∣ a.toNat → mem a = c.heap.mem a) :
    PageRuns.Sound k ⟨{ c.heap with mem }, c.held⟩ :=
  pages_header hs fun hr => by
    have haligned := hs.root_aligned hr
    exact ⟨hmem _ (by omega), hmem _ (by bv_omega), hmem _ (by bv_omega)⟩

end Frames

end MetalNes.Liballoc
