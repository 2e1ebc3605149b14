import MetalNes.ChunkWalks

namespace MetalNes.ChunkMerging

open PageChunks PageRuns FreeLists Segments ChunkWalks

def MeetsPost (f : Block) (after : List Block) : Prop := ∃ d ∈ after.head?, stop f = d.addr.toNat

section Post

variable {mem : Memory} {first back : U32} {f m d : Block} {init chunks after : List Block}

/-- The second half of merge_chunks, for the chunk that the block is in by then. -/
def mergePost (mem : Memory) (freed post : U32) : Memory :=
  if post ≠ NULL ∧ freed + pageCount mem freed * 4096 = post then
    let mem := setPageCount mem freed (pageCount mem freed + pageCount mem post)
    setNext mem freed (next mem post)
  else mem

theorem mergeChunks_joined {prior freed post : U32} (h : prior ≠ NULL ∧ prior + pageCount mem prior * 4096 = freed) :
    mergeChunks mem prior freed post = mergePost
      (setNext (setPageCount mem prior (pageCount mem prior + pageCount mem freed)) prior post) prior post := by
  rw [mergeChunks, if_pos h, mergePost]

theorem mergeChunks_apart {prior freed post : U32} (h : ¬ (prior ≠ NULL ∧ prior + pageCount mem prior * 4096 = freed)) :
    mergeChunks mem prior freed post = mergePost mem freed post := by
  rw [mergeChunks, if_neg h, mergePost]

theorem sameHeader_rewrite {a c v w : U32} (h : HeadersApart a c) :
    SameHeader mem (setNext (setPageCount mem a v) a w) c :=
  (h.setPageCount mem v).trans (h.setNext _ w)

theorem segment_rewrite {a v w q : U32} (hapart : ∀ b ∈ init, HeadersApart a b.addr)
    (h : Segment NULL (next mem) (prev mem) NULL first (init.map Block.addr ++ [a]) a q) :
    Segment NULL (next (setNext (setPageCount mem a v) a w)) (prev (setNext (setPageCount mem a v) a w)) NULL first
      (init.map Block.addr ++ [a]) a w := by
  obtain ⟨k, m, hinit, rfl, hne, hprev, -⟩ := segment_append.mp h
  have hsame := segment_sameHeader hinit fun b hb => sameHeader_rewrite (v := v) (w := w) (hapart b hb)
  refine segment_append.mpr ⟨k, _, hsame, rfl, hne, ?_, ?_, rfl⟩
  · rw [prev_setNext, prev_setPageCount, hprev]
  · rw [next_setNext]

/-- The list with the chunk m in its place; back is what the chunk behind m has in front of it. -/
structure Joined (mem : Memory) (first back : U32) (f : Block) (init : List Block) (m : Block)
    (after chunks : List Block) : Prop where
  front : Segment NULL (next mem) (prev mem) NULL first ((init ++ [m]).map Block.addr) m.addr (firstAddr after)
  rear : ∃ l, Segment NULL (next mem) (prev mem) back (firstAddr after) (after.map Block.addr) l NULL
  counted : ∀ b ∈ init ++ m :: after, pageCount mem b.addr = b.pages
  ascending : (init ++ m :: after).Pairwise fun b d => stop b ≤ d.addr.toNat
  placed : ∀ b ∈ init ++ m :: after, InMemory b
  freed : InMemory f
  initial : ∀ b ∈ init, stop b < f.addr.toNat
  stop_eq : stop m = stop f
  covered_eq : covered (init ++ m :: after) = covered chunks ∪ f.extent

theorem joins_iff (hm : InMemory m) (hd : stop m ≤ d.addr.toNat) :
    m.addr + m.pages * 4096 = d.addr ↔ stop m = d.addr.toNat := by
  unfold stop at *
  have hpages := hm.nonempty
  constructor
  · intro h
    bv_omega
  · intro h
    bv_omega

theorem meetsPost_cons : MeetsPost f (d :: after) ↔ stop f = d.addr.toNat := by
  simp [MeetsPost]

variable (h : Joined mem first back f init m after chunks)

include h

theorem Joined.behind : ∀ d ∈ after, stop m ≤ d.addr.toNat :=
  (List.pairwise_cons.mp (List.pairwise_append.mp h.ascending).2.1).1

theorem Joined.apart_init : ∀ b ∈ init, HeadersApart m.addr b.addr := (apart_middle h.ascending h.placed).1

theorem Joined.apart_after : ∀ d ∈ after, HeadersApart m.addr d.addr := (apart_middle h.ascending h.placed).2

theorem Joined.at_m : m.addr ≠ NULL ∧ next mem m.addr = firstAddr after := by
  have hfront := h.front
  rw [List.map_append] at hfront
  obtain ⟨k, a, -, rfl, hne, -, hnext, -⟩ := segment_append.mp hfront
  exact ⟨hne, hnext⟩

/-- Every walk that leaves the chunks in front of m alone comes to m. -/
theorem Joined.reached {mem' : Memory} {chunks' : List Block} (hsame : ∀ b ∈ init, SameHeader mem mem' b.addr)
    (h' : Describes mem' first chunks f chunks') : m.addr ∈ chunks'.map Block.addr := by
  have hfront := h.front
  rw [List.map_append] at hfront
  obtain ⟨k, a, hinit, rfl, -⟩ := segment_append.mp hfront
  exact (segment_iff_paths.mp (segment_sameHeader hinit hsame)).1.mem_of_reached h.at_m.1 h'.forth

theorem Joined.unmerged (hback : after = [] ∨ back = m.addr) (hafter : ∀ d ∈ after, stop f ≠ d.addr.toNat) :
    Describes mem first chunks f (init ++ m :: after) := by
  have hrear : ∃ l, Segment NULL (next mem) (prev mem) m.addr (firstAddr after) (after.map Block.addr) l NULL := by
    rcases hback with rfl | rfl
    · exact ⟨m.addr, rfl, rfl⟩
    · exact h.rear
  obtain ⟨l, hl⟩ := hrear
  have hall : Segment NULL (next mem) (prev mem) NULL first ((init ++ m :: after).map Block.addr) l NULL := by
    rw [← List.singleton_append, ← List.append_assoc, List.map_append]
    exact segment_append.mpr ⟨m.addr, firstAddr after, h.front, hl⟩
  exact .of_segment hall h.counted h.covered_eq
    (noSeam h.ascending h.placed h.freed h.initial h.stop_eq.ge hafter)

theorem Joined.mergePost_apart (hafter : ∀ d ∈ after, stop f ≠ d.addr.toNat) :
    mergePost mem m.addr (firstAddr after) = mem := by
  rw [mergePost, if_neg]
  rintro ⟨hne, hmeet⟩
  cases after with
  | nil => exact hne rfl
  | cons d rest =>
      rw [h.counted m mem_middle] at hmeet
      have hstop := (joins_iff (h.placed m mem_middle) (h.behind d List.mem_cons_self)).mp hmeet
      exact hafter d List.mem_cons_self (h.stop_eq.symm.trans hstop)

end Post

section Meeting

variable {mem : Memory} {first back : U32} {f m d : Block} {init chunks rest : List Block}
variable (h : Joined mem first back f init m (d :: rest) chunks)

include h

theorem Joined.mergePost_meets (hmeet : stop f = d.addr.toNat) :
    mergePost mem m.addr d.addr =
      setNext (setPageCount mem m.addr (m.pages + d.pages)) m.addr (next mem d.addr) := by
  have hd : d ∈ init ++ m :: d :: rest := List.mem_append_right init (List.mem_cons_of_mem m List.mem_cons_self)
  obtain ⟨l, -, hne, -⟩ := h.rear
  have hjoin := (joins_iff (h.placed m mem_middle) (h.behind d List.mem_cons_self)).mpr (h.stop_eq.trans hmeet)
  have hsame := (h.apart_after d List.mem_cons_self).setPageCount mem (m.pages + d.pages)
  rw [mergePost, h.counted m mem_middle, h.counted d hd, if_pos ⟨hne, hjoin⟩]
  show setNext _ m.addr (next (setPageCount mem m.addr (m.pages + d.pages)) d.addr) = _
  rw [hsame.next_eq]

theorem Joined.merged (hrest : rest = []) (hmeet : stop f = d.addr.toNat) :
    Describes (mergePost mem m.addr d.addr) first chunks f (init ++ [join m d]) := by
  subst hrest
  have hd : d ∈ init ++ m :: [d] := List.mem_append_right init (List.mem_cons_of_mem m List.mem_cons_self)
  have hm := h.placed m mem_middle
  have hjoin := h.stop_eq.trans hmeet
  have hlast : next mem d.addr = NULL := by
    obtain ⟨l, -, -, -, hend, -⟩ := h.rear
    exact hend
  obtain ⟨hinit, -, hbefore⟩ := List.pairwise_append.mp h.ascending
  have hwalk : Segment NULL (next (mergePost mem m.addr d.addr)) (prev (mergePost mem m.addr d.addr)) NULL first
      ((init ++ [join m d]).map Block.addr) m.addr NULL := by
    have hfront := h.front
    rw [List.map_append] at hfront
    rw [h.mergePost_meets hmeet, hlast, List.map_append]
    exact segment_rewrite h.apart_init hfront
  refine .of_segment hwalk ?_ ?_ (noSeam ?_ ?_ h.freed h.initial ?_ ?_)
  · intro b hb
    rw [h.mergePost_meets hmeet]
    rcases List.mem_append.mp hb with hbi | hbm
    · rw [(sameHeader_rewrite (h.apart_init b hbi)).pageCount_eq, h.counted b (List.mem_append_left _ hbi)]
    · obtain rfl := List.mem_singleton.mp hbm
      show pageCount _ m.addr = m.pages + d.pages
      rw [pageCount_setNext, pageCount_setPageCount]
  · rw [← h.covered_eq, covered_append, covered_append, covered_cons m, covered_singleton, covered_singleton,
      extent_join hm (h.placed d hd) hjoin]
  · refine List.pairwise_append.mpr ⟨hinit, List.pairwise_singleton _ _, fun b hb c hc => ?_⟩
    obtain rfl := List.mem_singleton.mp hc
    exact hbefore b hb m List.mem_cons_self
  · intro b hb
    rcases List.mem_append.mp hb with hbi | hbm
    · exact h.placed b (List.mem_append_left _ hbi)
    · obtain rfl := List.mem_singleton.mp hbm
      exact inMemory_join hm (h.placed d hd) hjoin
  · rw [(stop_join (h.placed d hd) hjoin).2, hmeet]
    exact (addr_lt_stop (h.placed d hd)).le
  · exact fun c hc => absurd hc List.not_mem_nil

theorem Joined.rest_nil (hmeet : stop f = d.addr.toNat) {chunks' : List Block}
    (h' : Describes (mergePost mem m.addr d.addr) first chunks f chunks') : rest = [] := by
  cases rest with
  | nil => rfl
  | cons e tail =>
      obtain ⟨l, -, -, -, hforth, hne, hback, -⟩ := h.rear
      have hnext : next mem d.addr = e.addr := hforth
      rw [hforth] at hne hback
      rw [h.mergePost_meets hmeet, hnext] at h'
      have he : SameHeader mem (setNext (setPageCount mem m.addr (m.pages + d.pages)) m.addr e.addr) e.addr :=
        sameHeader_rewrite (h.apart_after e (List.mem_cons_of_mem d List.mem_cons_self))
      have hreached := h.reached (fun b hb => sameHeader_rewrite (h.apart_init b hb)) h'
      have hprev := h'.segment.prev_next hreached (by rwa [next_setNext])
      rw [next_setNext, he.prev_eq, hback] at hprev
      have hlt := addr_lt_stop (h.placed m mem_middle)
      rw [h.stop_eq, hmeet] at hlt
      exact absurd (congrArg BitVec.toNat hprev) hlt.ne'

/-- Where nothing is merged, the chunk behind m has to have it in front already. -/
theorem Joined.back_eq {chunks' : List Block} (h' : Describes mem first chunks f chunks') : back = m.addr := by
  obtain ⟨l, -, hne, hback, -⟩ := h.rear
  obtain ⟨-, hnext⟩ := h.at_m
  have hprev := h'.segment.prev_next (h.reached (fun b _ => SameHeader.refl mem b.addr) h') (by rwa [hnext])
  rw [hnext, hback] at hprev
  exact hprev

end Meeting

theorem Joined.keeps_iff {mem : Memory} {first back : U32} {f m : Block} {init chunks after : List Block}
    (h : Joined mem first back f init m after chunks) :
    (∃ chunks', Describes (mergePost mem m.addr (firstAddr after)) first chunks f chunks') ↔
      after = [] ∨ MeetsPost f after ∧ after.length = 1 ∨ back = m.addr ∧ ¬ MeetsPost f after := by
  cases after with
  | nil =>
      have hafter : ∀ d ∈ ([] : List Block), stop f ≠ d.addr.toNat := fun d hd => absurd hd List.not_mem_nil
      rw [h.mergePost_apart hafter]
      exact iff_of_true ⟨_, h.unmerged (.inl rfl) hafter⟩ (.inl rfl)
  | cons d rest =>
      rw [meetsPost_cons]
      by_cases hmeet : stop f = d.addr.toNat
      · constructor
        · rintro ⟨chunks', h'⟩
          have hrest := h.rest_nil hmeet h'
          exact .inr (.inl ⟨hmeet, by rw [hrest, List.length_singleton]⟩)
        · rintro (hnil | ⟨-, hlen⟩ | ⟨-, hnot⟩)
          · cases hnil
          · exact ⟨_, h.merged (List.length_eq_zero_iff.mp (Nat.succ.inj hlen)) hmeet⟩
          · exact absurd hmeet hnot
      · have hafter : ∀ e ∈ d :: rest, stop f ≠ e.addr.toNat := by
          intro e he heq
          rcases List.mem_cons.mp he with rfl | he
          · exact hmeet heq
          · have hasc := (List.pairwise_append.mp h.ascending).2.1
            have hde := (List.pairwise_cons.mp (List.pairwise_cons.mp hasc).2).1 e he
            have hmd := h.behind d List.mem_cons_self
            have hdstop := addr_lt_stop (h.placed d
              (List.mem_append_right init (List.mem_cons_of_mem m List.mem_cons_self)))
            rw [h.stop_eq] at hmd
            omega
        rw [h.mergePost_apart hafter]
        constructor
        · rintro ⟨chunks', h'⟩
          exact .inr (.inr ⟨h.back_eq h', hmeet⟩)
        · rintro (hnil | ⟨hyes, -⟩ | ⟨hback, -⟩)
          · cases hnil
          · exact absurd hyes hmeet
          · exact ⟨_, h.unmerged (.inr hback) hafter⟩

end MetalNes.ChunkMerging
