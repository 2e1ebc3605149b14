import MetalNes.FreeLists
import MetalNes.Segments

namespace MetalNes.ChunkWalks

open PageChunks PageRuns FreeLists Segments

def stop (b : Block) : Nat := b.addr.toNat + 4096 * b.pages.toNat

def firstAddr (chunks : List Block) : U32 := (chunks.head?.map Block.addr).getD NULL
def lastAddr (chunks : List Block) : U32 := (chunks.getLast?.map Block.addr).getD NULL

/-- The two walks visit the same chunks, those cover the old ones and the block, and no two
of them meet at an end of the block. -/
structure Describes (mem : Memory) (first : U32) (chunks : List Block) (f : Block) (chunks' : List Block) : Prop where
  forth : Path NULL (next mem) first (chunks'.map Block.addr) NULL
  back : Path NULL (prev mem) (lastAddr chunks') (chunks'.map Block.addr).reverse NULL
  counted : ∀ b ∈ chunks', pageCount mem b.addr = b.pages
  covered_eq : covered chunks' = covered chunks ∪ f.extent
  merged : ∀ b ∈ chunks', ∀ d ∈ chunks', stop b = d.addr.toNat → stop b ≠ f.addr.toNat ∧ stop b ≠ stop f

section Walks

variable {mem : Memory} {back p l q first : U32} {b d f : Block} {chunks chunks' before after : List Block}

theorem linked_iff : Linked mem back p chunks ↔
    (∃ l, Segment NULL (next mem) (prev mem) back p (chunks.map Block.addr) l NULL) ∧
      ∀ b ∈ chunks, pageCount mem b.addr = b.pages := by
  induction chunks generalizing back p with
  | nil =>
      constructor
      · exact fun h => ⟨⟨back, h, rfl⟩, fun b hb => absurd hb List.not_mem_nil⟩
      · rintro ⟨⟨l, h, -⟩, -⟩
        exact h
  | cons b rest ih =>
      constructor
      · rintro ⟨rfl, hne, hcount, hprev, hrest⟩
        obtain ⟨⟨l, hl⟩, hcounted⟩ := ih.mp hrest
        exact ⟨⟨l, rfl, hne, hprev, hl⟩, List.forall_mem_cons.mpr ⟨hcount, hcounted⟩⟩
      · rintro ⟨⟨l, rfl, hne, hprev, hl⟩, hcounted⟩
        obtain ⟨hcount, hrest⟩ := List.forall_mem_cons.mp hcounted
        exact ⟨rfl, hne, hcount, hprev, ih.mpr ⟨⟨l, hl⟩, hrest⟩⟩

theorem path_firstAddr {link : U32 → U32} (h : Path NULL link p (chunks.map Block.addr) NULL) :
    p = firstAddr chunks := by
  cases chunks with
  | nil => exact h
  | cons b rest => exact h.1

theorem firstAddr_reverse : firstAddr chunks.reverse = lastAddr chunks := by
  rw [firstAddr, List.head?_reverse, lastAddr]

theorem segment_lastAddr (h : Segment NULL (next mem) (prev mem) NULL p (chunks.map Block.addr) l q) :
    l = lastAddr chunks := by
  have hback := (segment_iff_paths.mp h).2
  rw [← List.map_reverse] at hback
  rw [path_firstAddr hback, firstAddr_reverse]

theorem linked_append (h : Linked mem NULL p (before ++ after)) :
    Segment NULL (next mem) (prev mem) NULL p (before.map Block.addr) (lastAddr before) (firstAddr after) ∧
      ∃ l, Segment NULL (next mem) (prev mem) (lastAddr before) (firstAddr after) (after.map Block.addr) l NULL := by
  obtain ⟨⟨l, hl⟩, -⟩ := linked_iff.mp h
  rw [List.map_append] at hl
  obtain ⟨k, m, hfront, hrear⟩ := segment_append.mp hl
  obtain rfl := segment_lastAddr hfront
  obtain rfl := path_firstAddr (segment_iff_paths.mp hrear).1
  exact ⟨hfront, l, hrear⟩

theorem segment_sameHeader {mem' : Memory}
    (h : Segment NULL (next mem) (prev mem) back p (chunks.map Block.addr) l q)
    (hsame : ∀ b ∈ chunks, SameHeader mem mem' b.addr) :
    Segment NULL (next mem') (prev mem') back p (chunks.map Block.addr) l q := by
  refine h.congr (fun a ha => ?_) fun a ha => ?_
  · obtain ⟨b, hb, rfl⟩ := List.mem_map.mp ha
    exact (hsame b hb).next_eq
  · obtain ⟨b, hb, rfl⟩ := List.mem_map.mp ha
    exact (hsame b hb).prev_eq

theorem Describes.segment (h : Describes mem first chunks f chunks') :
    Segment NULL (next mem) (prev mem) NULL first (chunks'.map Block.addr) (lastAddr chunks') NULL :=
  segment_iff_paths.mpr ⟨h.forth, h.back⟩

theorem Describes.of_segment
    (h : Segment NULL (next mem) (prev mem) NULL first (chunks'.map Block.addr) l NULL)
    (hcounted : ∀ b ∈ chunks', pageCount mem b.addr = b.pages)
    (hcovered : covered chunks' = covered chunks ∪ f.extent)
    (hmerged : ∀ b ∈ chunks', ∀ d ∈ chunks', stop b = d.addr.toNat → stop b ≠ f.addr.toNat ∧ stop b ≠ stop f) :
    Describes mem first chunks f chunks' := by
  obtain rfl := segment_lastAddr h
  obtain ⟨hforth, hback⟩ := segment_iff_paths.mp h
  exact ⟨hforth, hback, hcounted, hcovered, hmerged⟩

end Walks

section Placement

variable {mem : Memory} {b d f m : Block} {v : U32} {init after : List Block}

theorem addr_lt_stop (hb : InMemory b) : b.addr.toNat < stop b := by
  have hpages := hb.nonempty
  unfold stop
  bv_omega

theorem headersApart (hb : InMemory b) (hd : InMemory d) (h : stop b ≤ d.addr.toNat) : HeadersApart b.addr d.addr := by
  have hbpages := hb.nonempty
  have hdpages := hd.nonempty
  have hfits := hd.fits
  unfold stop at h
  unfold HeadersApart
  bv_omega

def join (m d : Block) : Block := ⟨m.addr, m.pages + d.pages⟩

theorem stop_join (hd : InMemory d) (h : stop m = d.addr.toNat) :
    (m.pages + d.pages).toNat = m.pages.toNat + d.pages.toNat ∧ stop (join m d) = stop d := by
  have hfits := hd.fits
  unfold stop at h
  have hsum : (m.pages + d.pages).toNat = m.pages.toNat + d.pages.toNat := by
    bv_omega
  refine ⟨hsum, ?_⟩
  show m.addr.toNat + 4096 * (m.pages + d.pages).toNat = d.addr.toNat + 4096 * d.pages.toNat
  rw [hsum]
  omega

theorem covered_append (xs ys : List Block) : covered (xs ++ ys) = covered xs ∪ covered ys := by
  ext x
  simp only [covered, List.mem_append, Set.mem_union, Set.mem_ofPred_eq, or_and_right, exists_or]

theorem covered_cons (b : Block) (xs : List Block) : covered (b :: xs) = b.extent ∪ covered xs := by
  rw [← List.singleton_append, covered_append, covered_singleton]

theorem extent_join (hm : InMemory m) (hd : InMemory d) (h : stop m = d.addr.toNat) :
    (join m d).extent = m.extent ∪ d.extent := by
  have hstop := (stop_join hd h).2
  have hmstop := addr_lt_stop hm
  have hdstop := addr_lt_stop hd
  ext x
  simp only [join, stop] at h hstop hmstop hdstop
  simp only [join, Block.extent, Set.mem_union, Set.mem_Ico]
  omega

theorem inMemory_join (hm : InMemory m) (hd : InMemory d) (h : stop m = d.addr.toNat) :
    InMemory (join m d) := by
  obtain ⟨hsum, hstop⟩ := stop_join hd h
  constructor
  · have hpages := hm.nonempty
    show m.pages + d.pages ≠ 0
    bv_omega
  · exact hstop.le.trans hd.fits

theorem mem_middle : m ∈ init ++ m :: after := List.mem_append_right init List.mem_cons_self

theorem apart_middle (hasc : (init ++ m :: after).Pairwise fun b d => stop b ≤ d.addr.toNat)
    (hplaced : ∀ b ∈ init ++ m :: after, InMemory b) :
    (∀ b ∈ init, HeadersApart m.addr b.addr) ∧ ∀ d ∈ after, HeadersApart m.addr d.addr := by
  obtain ⟨-, hm, hcross⟩ := List.pairwise_append.mp hasc
  have hplacedm := hplaced m mem_middle
  constructor
  · intro b hb
    have hle := hcross b hb m List.mem_cons_self
    exact (headersApart (hplaced b (List.mem_append_left _ hb)) hplacedm hle).symm
  · intro d hd
    have hplacedd := hplaced d (List.mem_append_right init (List.mem_cons_of_mem m hd))
    exact headersApart hplacedm hplacedd ((List.pairwise_cons.mp hm).1 d hd)

/-- No chunk meets another one at an end of the block that the chunk m has taken in. -/
theorem noSeam (hasc : (init ++ m :: after).Pairwise fun b d => stop b ≤ d.addr.toNat)
    (hplaced : ∀ b ∈ init ++ m :: after, InMemory b) (hf : InMemory f) (hinit : ∀ b ∈ init, stop b < f.addr.toNat)
    (hstop : stop f ≤ stop m) (hafter : ∀ d ∈ after, stop f ≠ d.addr.toNat) :
    ∀ b ∈ init ++ m :: after, ∀ d ∈ init ++ m :: after, stop b = d.addr.toNat →
      stop b ≠ f.addr.toNat ∧ stop b ≠ stop f := by
  have hfstop := addr_lt_stop hf
  obtain ⟨hmafter, -⟩ := List.pairwise_cons.mp (List.pairwise_append.mp hasc).2.1
  intro b hb d hd hmeet
  rcases List.mem_append.mp hb with hbi | hbm
  · have hlt := hinit b hbi
    exact ⟨hlt.ne, (hlt.trans hfstop).ne⟩
  · rcases List.mem_cons.mp hbm with rfl | hba
    · refine ⟨(hfstop.trans_le hstop).ne', fun heq => ?_⟩
      rcases List.mem_append.mp hd with hdi | hdm
      · have hdstop := addr_lt_stop (hplaced d hd)
        have hdb := hinit d hdi
        omega
      · rcases List.mem_cons.mp hdm with rfl | hda
        · exact (addr_lt_stop (hplaced d hd)).ne' hmeet
        · exact hafter d hda (heq.symm.trans hmeet)
    · have hbstop := addr_lt_stop (hplaced b hb)
      have hmb := hmafter b hba
      constructor
      all_goals omega

end Placement

end MetalNes.ChunkWalks
