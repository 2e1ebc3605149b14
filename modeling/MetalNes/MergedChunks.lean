import MetalNes.ChunkMerging

namespace MetalNes.MergedChunks

open PageChunks PageRuns FreeLists Segments ChunkWalks ChunkMerging

/-- A block between two neighbours of the list, or behind or in front of them all. -/
structure Between (s : Pmm) (before after : List Block) (f : Block) : Prop where
  list : WellFormed s (before ++ after)
  placed : InMemory f
  behind : ∀ b ∈ before.getLast?, stop b ≤ f.addr.toNat
  inFront : ∀ d ∈ after.head?, stop f ≤ d.addr.toNat

/-- The block has the header that freePage writes. -/
structure Inserted (s : Pmm) (before after : List Block) (f : Block) : Prop extends Between s before after f where
  ne_null : f.addr ≠ NULL
  count_eq : pageCount s.mem f.addr = f.pages
  prev_eq : prev s.mem f.addr = lastAddr before
  next_eq : next s.mem f.addr = firstAddr after

def KeepsLinks (s : Pmm) (before after : List Block) (f : Block) : Prop :=
  ∃ chunks', Describes (mergeChunks s.mem (lastAddr before) f.addr (firstAddr after)) (firstAddr (before ++ [f]))
    (before ++ after) f chunks'

def MeetsPrior (before : List Block) (f : Block) : Prop := ∃ b ∈ before.getLast?, stop b = f.addr.toNat

section Prior

variable {mem : Memory} {s : Pmm} {b d f : Block} {init rest before after chunks chunks' : List Block}

theorem lastAddr_concat : lastAddr (init ++ [b]) = b.addr := by
  rw [lastAddr, List.getLast?_concat]
  rfl

theorem firstAddr_concat (xs ys : List Block) : firstAddr (init ++ [b] ++ xs) = firstAddr (init ++ [b] ++ ys) := by
  cases init with
  | nil => rfl
  | cons c rest => rfl

theorem meetsPrior_concat : MeetsPrior (init ++ [b]) f ↔ stop b = f.addr.toNat := by
  simp [MeetsPrior]

theorem Between.behind_all (h : Between s before after f) : ∀ b ∈ before, stop b ≤ f.addr.toNat := by
  intro b hb
  rcases List.eq_nil_or_concat before with rfl | ⟨init, l, rfl⟩
  · cases hb
  · rw [List.concat_eq_append] at hb h
    have hl := h.behind l (by rw [List.getLast?_concat, Option.mem_some_iff])
    rcases List.mem_append.mp hb with hbi | hbl
    · have hasc := (List.pairwise_append.mp h.list.ascending).1
      have hle : stop b ≤ l.addr.toNat := (List.pairwise_append.mp hasc).2.2 b hbi l (List.mem_singleton_self l)
      have hlstop := addr_lt_stop
        (h.list.placed l (List.mem_append_left after (List.mem_append_right init (List.mem_singleton_self l))))
      omega
    · obtain rfl := List.mem_singleton.mp hbl
      exact hl

theorem Between.inFront_all (h : Between s before after f) : ∀ d ∈ after, stop f ≤ d.addr.toNat := by
  intro d hd
  cases after with
  | nil => cases hd
  | cons e rest =>
      have he := h.inFront e rfl
      rcases List.mem_cons.mp hd with rfl | hd
      · exact he
      · have hle : stop e ≤ d.addr.toNat :=
          List.rel_of_pairwise_cons (List.pairwise_append.mp h.list.ascending).2.1 hd
        have hestop := addr_lt_stop (h.list.placed e (List.mem_append_right before List.mem_cons_self))
        omega

theorem Between.ascending (h : Between s before after f) :
    (before ++ f :: after).Pairwise fun b d => stop b ≤ d.addr.toNat := by
  obtain ⟨hbefore, hafter, hcross⟩ := List.pairwise_append.mp h.list.ascending
  refine List.pairwise_append.mpr ⟨hbefore, List.pairwise_cons.mpr ⟨h.inFront_all, hafter⟩, fun b hb d hd => ?_⟩
  rcases List.mem_cons.mp hd with rfl | hd
  · exact h.behind_all b hb
  · exact hcross b hb d hd

theorem Between.placed_all (h : Between s before after f) : ∀ b ∈ before ++ f :: after, InMemory b := by
  intro b hb
  rcases List.mem_append.mp hb with hbb | hbf
  · exact h.list.placed b (List.mem_append_left after hbb)
  · rcases List.mem_cons.mp hbf with rfl | hba
    · exact h.placed
    · exact h.list.placed b (List.mem_append_right before hba)

theorem Between.counted (h : Between s before after f) : ∀ b ∈ before ++ after, pageCount s.mem b.addr = b.pages :=
  (linked_iff.mp h.list.linked).2

theorem Between.apart (h : Between s before after f) : ∀ b ∈ before ++ after, HeadersApart f.addr b.addr := by
  obtain ⟨hbefore, hafter⟩ := apart_middle h.ascending h.placed_all
  intro b hb
  rcases List.mem_append.mp hb with hbb | hba
  · exact hbefore b hbb
  · exact hafter b hba

theorem prior_mem : b ∈ init ++ [b] ++ after :=
  List.mem_append_left after (List.mem_append_right init (List.mem_singleton_self b))

theorem written_sameHeader {a c v post prior : U32} (h : HeadersApart a c) :
    SameHeader mem (setPrev (setNext (setPageCount mem a v) a post) a prior) c :=
  (sameHeader_rewrite h).trans (h.setPrev _ _)

theorem wellFormed_congr {mem : Memory} (h : WellFormed s chunks) (hsame : ∀ b ∈ chunks, SameHeader s.mem mem b.addr) :
    WellFormed { s with mem } chunks := by
  refine ⟨?_, h.ascending, h.placed⟩
  obtain ⟨⟨l, hl⟩, hcounted⟩ := linked_iff.mp h.linked
  exact linked_iff.mpr ⟨⟨l, segment_sameHeader hl hsame⟩, fun b hb => (hsame b hb).pageCount_eq.trans (hcounted b hb)⟩

/-- freePage writes such a header before it calls merge_chunks. -/
theorem Between.insertChunk_eq (h : Between s before (d :: rest) f) (hne : f.addr ≠ NULL) :
    ∃ s', Inserted s' before (d :: rest) f ∧
      insertChunk s.mem f.addr f.pages d.addr = mergeChunks s'.mem (lastAddr before) f.addr d.addr := by
  have hback : prev s.mem d.addr = lastAddr before := by
    obtain ⟨-, l, -, -, hback, -⟩ := linked_append h.list.linked
    exact hback
  have hd := h.apart d mem_middle
  refine ⟨{ s with
      mem := setPrev (setNext (setPageCount s.mem f.addr f.pages) f.addr d.addr) f.addr (lastAddr before) },
    ⟨⟨?_, h.placed, h.behind, h.inFront⟩, hne, ?_, ?_, ?_⟩, ?_⟩
  · exact wellFormed_congr h.list fun b hb => written_sameHeader (h.apart b hb)
  · simp
  · simp
  · simp [firstAddr]
  · simp only [insertChunk, (sameHeader_rewrite hd).prev_eq, (written_sameHeader hd).prev_eq, hback]

theorem Inserted.joined_nil (h : Inserted s [] after f) : Joined s.mem f.addr NULL f [] f after after where
  front := ⟨rfl, h.ne_null, h.prev_eq, h.next_eq, rfl⟩
  rear := (linked_append h.list.linked).2
  counted := List.forall_mem_cons.mpr ⟨h.count_eq, h.counted⟩
  ascending := h.ascending
  placed := h.placed_all
  freed := h.placed
  initial := fun b hb => absurd hb List.not_mem_nil
  stop_eq := rfl
  covered_eq := by rw [List.nil_append, covered_cons, Set.union_comm]

theorem Inserted.joined_concat (h : Inserted s (init ++ [b]) after f) (hmeet : stop b = f.addr.toNat) :
    Joined (setNext (setPageCount s.mem b.addr (b.pages + f.pages)) b.addr (firstAddr after))
      (firstAddr (init ++ [b] ++ [f])) b.addr f init (join b f) after (init ++ [b] ++ after) := by
  have hasc := h.ascending
  have hplaced := h.placed_all
  rw [List.append_assoc, List.singleton_append] at hasc hplaced
  obtain ⟨hinit, hrest, hcross⟩ := List.pairwise_append.mp hasc
  obtain ⟨hfafter, hafter⟩ := List.pairwise_cons.mp (List.pairwise_cons.mp hrest).2
  have hb : InMemory b := hplaced b mem_middle
  obtain ⟨hapartInit, hapartRest⟩ := apart_middle hasc hplaced
  have hafterMem : ∀ c ∈ after, c ∈ init ++ b :: f :: after := fun c hc =>
    List.mem_append_right init (List.mem_cons_of_mem b (List.mem_cons_of_mem f hc))
  have hapartAfter : ∀ c ∈ after, HeadersApart b.addr c.addr := fun c hc =>
    hapartRest c (List.mem_cons_of_mem f hc)
  obtain ⟨hfront, l, hrear⟩ := linked_append h.list.linked
  rw [lastAddr_concat] at hfront hrear
  have hroot : s.rootMemNode = firstAddr (init ++ [b] ++ [f]) := by
    obtain ⟨⟨k, hk⟩, -⟩ := linked_iff.mp h.list.linked
    rw [path_firstAddr (segment_iff_paths.mp hk).1, firstAddr_concat after [f]]
  have hjoin := stop_join h.placed hmeet
  constructor
  case front =>
    rw [← hroot, List.map_append]
    rw [List.map_append] at hfront
    exact segment_rewrite hapartInit hfront
  case rear =>
    exact ⟨l, segment_sameHeader hrear fun c hc => sameHeader_rewrite (hapartAfter c hc)⟩
  case counted =>
    intro c hc
    rcases List.mem_append.mp hc with hci | hcj
    · rw [(sameHeader_rewrite (hapartInit c hci)).pageCount_eq,
        h.counted c (List.mem_append_left _ (List.mem_append_left _ hci))]
    · rcases List.mem_cons.mp hcj with rfl | hca
      · show pageCount _ b.addr = b.pages + f.pages
        rw [pageCount_setNext, pageCount_setPageCount]
      · rw [(sameHeader_rewrite (hapartAfter c hca)).pageCount_eq, h.counted c (List.mem_append_right _ hca)]
  case ascending =>
    refine List.pairwise_append.mpr ⟨hinit, List.pairwise_cons.mpr ⟨fun c hc => ?_, hafter⟩, fun c hc e he => ?_⟩
    · rw [hjoin.2]
      exact hfafter c hc
    · rcases List.mem_cons.mp he with rfl | hea
      · exact hcross c hc b List.mem_cons_self
      · exact hcross c hc e (List.mem_cons_of_mem b (List.mem_cons_of_mem f hea))
  case placed =>
    intro c hc
    rcases List.mem_append.mp hc with hci | hcj
    · exact hplaced c (List.mem_append_left _ hci)
    · rcases List.mem_cons.mp hcj with rfl | hca
      · exact inMemory_join hb h.placed hmeet
      · exact hplaced c (hafterMem c hca)
  case freed => exact h.placed
  case initial =>
    intro c hc
    have hlt := addr_lt_stop hb
    rw [hmeet] at hlt
    exact (hcross c hc b List.mem_cons_self).trans_lt hlt
  case stop_eq => exact hjoin.2
  case covered_eq =>
    rw [covered_append, covered_cons, covered_append, covered_append, covered_singleton, extent_join hb h.placed hmeet]
    ac_rfl

theorem mergePost_sameHeader {a c post : U32} (h : HeadersApart a c) : SameHeader mem (mergePost mem a post) c := by
  rw [mergePost]
  split
  · exact sameHeader_rewrite h
  · exact .refl mem c

theorem eq_of_counted (h : ∀ b ∈ chunks, pageCount mem b.addr = b.pages) :
    (chunks.map Block.addr).map (fun a => ⟨a, pageCount mem a⟩) = chunks := by
  rw [List.map_map]
  refine (List.map_congr_left fun b hb => ?_).trans (List.map_id chunks)
  show Block.mk b.addr (pageCount mem b.addr) = b
  rw [h b hb]

/-- A block that is not merged with the chunk in front of it is not linked from there. -/
theorem Inserted.not_describes (h : Inserted s (init ++ [b]) after f) {post : U32} :
    ¬ Describes (mergePost s.mem f.addr post) (firstAddr (init ++ [b] ++ [f])) (init ++ [b] ++ after) f chunks' := by
  intro h'
  have hsame : ∀ c ∈ init ++ [b] ++ after, SameHeader s.mem (mergePost s.mem f.addr post) c.addr :=
    fun c hc => mergePost_sameHeader (h.apart c hc)
  obtain ⟨⟨l, hl⟩, hcounted⟩ := linked_iff.mp h.list.linked
  have hpath := (segment_iff_paths.mp (segment_sameHeader hl hsame)).1
  rw [path_firstAddr hpath, firstAddr_concat after [f]] at hpath
  have hvisited : chunks'.map Block.addr = (init ++ [b] ++ after).map Block.addr := by
    exact h'.forth.unique hpath
  have hold : chunks' = init ++ [b] ++ after := by
    rw [← eq_of_counted h'.counted, hvisited]
    exact eq_of_counted fun c hc => (hsame c hc).pageCount_eq.trans (hcounted c hc)
  have hfstop := addr_lt_stop h.placed
  have hin : f.addr.toNat ∈ covered (init ++ [b] ++ after) := by
    rw [← hold, h'.covered_eq]
    exact .inr ⟨le_rfl, hfstop⟩
  obtain ⟨c, hc, hcle, hclt⟩ := hin
  rcases List.mem_append.mp hc with hcb | hca
  · exact absurd hclt (h.behind_all c hcb).not_gt
  · exact absurd hcle (hfstop.trans_le (h.inFront_all c hca)).not_ge

theorem Inserted.keeps_nil_iff (h : Inserted s [] after f) : KeepsLinks s [] after f ↔
    after = [] ∨ MeetsPost f after ∧ after.length = 1 := by
  have hnull : ¬ (NULL = f.addr ∧ ¬ MeetsPost f after) := fun hback => h.ne_null hback.1.symm
  have hprior : ¬ (lastAddr [] ≠ NULL ∧ lastAddr [] + pageCount s.mem (lastAddr []) * 4096 = f.addr) :=
    fun hargs => hargs.1 rfl
  rw [KeepsLinks, mergeChunks_apart hprior]
  refine h.joined_nil.keeps_iff.trans ?_
  rw [or_iff_left hnull]

theorem Inserted.prior_ne_null (h : Inserted s (init ++ [b]) after f) : b.addr ≠ NULL := by
  intro hnull
  obtain ⟨hfront, -⟩ := linked_append h.list.linked
  refine (segment_iff_paths.mp hfront).1.ne_stop ?_
  rw [← hnull]
  exact List.mem_map_of_mem (List.mem_append_right init (List.mem_singleton_self b))

theorem Inserted.keeps_concat_iff (h : Inserted s (init ++ [b]) after f) (hmeet : stop b = f.addr.toNat) :
    KeepsLinks s (init ++ [b]) after f ↔ after = [] ∨ MeetsPost f after ∧ after.length = 1 ∨ ¬ MeetsPost f after := by
  have hb := h.list.placed b prior_mem
  have hadjoins : b.addr + pageCount s.mem b.addr * 4096 = f.addr := by
    rw [h.counted b prior_mem]
    exact (joins_iff hb hmeet.le).mpr hmeet
  have hself : b.addr = (join b f).addr := rfl
  rw [KeepsLinks, lastAddr_concat, mergeChunks_joined ⟨h.prior_ne_null, hadjoins⟩, h.counted b prior_mem, h.count_eq]
  refine (h.joined_concat hmeet).keeps_iff.trans ?_
  rw [and_iff_right hself]

theorem Inserted.not_keepsLinks (h : Inserted s (init ++ [b]) after f) (hapart : stop b ≠ f.addr.toNat) :
    ¬ KeepsLinks s (init ++ [b]) after f := by
  rintro ⟨chunks', h'⟩
  rw [lastAddr_concat, mergeChunks_apart] at h'
  · exact h.not_describes h'
  · rintro ⟨-, hadjoins⟩
    rw [h.counted b prior_mem] at hadjoins
    have hle := h.behind_all b (List.mem_append_right init (List.mem_singleton_self b))
    exact hapart ((joins_iff (h.list.placed b prior_mem) hle).mp hadjoins)

end Prior

/-- For every free list and every place in it: the block gets into both directions of the list if it is
merged with the chunk in front of it, where there is one, and the chunk behind it, where there is one, is
either the last and merged too, or has the right chunk in front of it from before. -/
theorem keepsLinks_iff {s : Pmm} {before after : List Block} {f : Block} (h : Inserted s before after f) :
    KeepsLinks s before after f ↔ (before = [] ∨ MeetsPrior before f) ∧
      (after = [] ∨ MeetsPost f after ∧ after.length = 1 ∨ MeetsPrior before f ∧ ¬ MeetsPost f after) := by
  rcases List.eq_nil_or_concat before with rfl | ⟨init, b, rfl⟩
  · have hnone : ¬ MeetsPrior [] f := by
      rintro ⟨b, hb, -⟩
      cases hb
    rw [h.keeps_nil_iff]
    simp [hnone]
  · rw [List.concat_eq_append] at h ⊢
    rw [meetsPrior_concat]
    by_cases hmeet : stop b = f.addr.toNat
    · rw [h.keeps_concat_iff hmeet]
      simp [hmeet]
    · simp [h.not_keepsLinks hmeet, hmeet]

/-- A chunk of one page, a block of one behind it and a chunk of two behind both. -/
def threeHeaders (freed post : U32) : Pmm where
  mem a := if a = 0x20000 then 1 else if a = 0x20008 then post
    else if a = freed then 1 else if a = freed + 4 then 0x20000 else if a = freed + 8 then post
    else if a = post then 2 else if a = post + 4 then 0x20000 else 0
  rootMemNode := 0x20000
  memFree := 0
  memUsed := 0

theorem hole_inserted : Inserted (threeHeaders 0x21000 0x22000) [⟨0x20000, 1⟩] [⟨0x22000, 2⟩] ⟨0x21000, 1⟩ := by
  refine ⟨⟨⟨?_, by simp, ?_⟩, ⟨by decide, by decide⟩, by decide, by decide⟩, by decide, rfl, rfl, rfl⟩
  · simp only [List.singleton_append, Linked]
    decide
  · intro b hb
    obtain rfl | rfl := List.mem_pair.mp hb
    all_goals exact ⟨by decide, by decide⟩

theorem hole_keepsLinks : KeepsLinks (threeHeaders 0x21000 0x22000) [⟨0x20000, 1⟩] [⟨0x22000, 2⟩] ⟨0x21000, 1⟩ :=
  (keepsLinks_iff hole_inserted).mpr
    ⟨.inr ⟨_, rfl, by decide⟩, .inr (.inl ⟨⟨_, rfl, by decide⟩, rfl⟩)⟩

theorem island_inserted :
    Inserted (threeHeaders 0x24000 0x30000) ([] ++ [⟨0x20000, 1⟩]) [⟨0x30000, 2⟩] ⟨0x24000, 1⟩ := by
  refine ⟨⟨⟨?_, by simp, ?_⟩, ⟨by decide, by decide⟩, by decide, by decide⟩, by decide, rfl, rfl, rfl⟩
  · simp only [List.nil_append, List.singleton_append, Linked]
    decide
  · intro b hb
    obtain rfl | rfl := List.mem_pair.mp hb
    all_goals exact ⟨by decide, by decide⟩

/-- A block that neither neighbour adjoins is linked from none of them. -/
theorem island_not_kept :
    Inserted (threeHeaders 0x24000 0x30000) [⟨0x20000, 1⟩] [⟨0x30000, 2⟩] ⟨0x24000, 1⟩ ∧
      ¬ KeepsLinks (threeHeaders 0x24000 0x30000) [⟨0x20000, 1⟩] [⟨0x30000, 2⟩] ⟨0x24000, 1⟩ :=
  ⟨island_inserted, island_inserted.not_keepsLinks (by decide)⟩

end MetalNes.MergedChunks
