import MetalNes.PageRuns

namespace MetalNes.FreeLists

open Loop PageChunks PageRuns

/-- The chunks from a pointer on: the memory holds their sizes and both their links. -/
def Linked (mem : Memory) : U32 → U32 → List Block → Prop
  | _, p, [] => p = NULL
  | prior, p, b :: rest =>
      p = b.addr ∧ p ≠ NULL ∧ pageCount mem p = b.pages ∧ prev mem p = prior ∧
        Linked mem p (next mem p) rest

/-- At least one page, and none behind the end of the address space. -/
structure InMemory (b : Block) : Prop where
  nonempty : b.pages ≠ 0
  fits : b.addr.toNat + 4096 * b.pages.toNat ≤ 2 ^ 32

structure WellFormed (s : Pmm) (chunks : List Block) : Prop where
  linked : Linked s.mem NULL s.rootMemNode chunks
  ascending : chunks.Pairwise fun b d => b.addr.toNat + 4096 * b.pages.toNat ≤ d.addr.toNat
  placed : ∀ b ∈ chunks, InMemory b

def covered (chunks : List Block) : Set Nat := {x | ∃ b ∈ chunks, x ∈ b.extent}

section Lists

variable {s : Pmm} {b : Block} {chunks rest : List Block}

theorem covered_nil : covered [] = ∅ := by
  ext x
  simp [covered]

theorem covered_singleton (b : Block) : covered [b] = b.extent := by
  ext x
  simp [covered]

theorem wellFormed_nil_iff : WellFormed s [] ↔ s.rootMemNode = NULL :=
  ⟨fun h => h.linked, fun h => ⟨h, .nil, fun _ hb => absurd hb List.not_mem_nil⟩⟩

theorem wellFormed_singleton_iff : WellFormed s [b] ↔ s.rootMemNode = b.addr ∧ b.addr ≠ NULL ∧
    pageCount s.mem b.addr = b.pages ∧ prev s.mem b.addr = NULL ∧ next s.mem b.addr = NULL ∧ InMemory b := by
  constructor
  · intro h
    obtain ⟨hroot, hne, hcount, hprev, hnext⟩ := h.linked
    rw [hroot] at hne hcount hprev hnext
    exact ⟨hroot, hne, hcount, hprev, hnext, h.placed b (List.mem_singleton_self b)⟩
  · rintro ⟨hroot, hne, hcount, hprev, hnext, hb⟩
    refine ⟨?_, List.pairwise_singleton _ _, fun d hd => ?_⟩
    · rw [Linked, hroot]
      exact ⟨rfl, hne, hcount, hprev, hnext⟩
    · rwa [List.mem_singleton.mp hd]

theorem WellFormed.first (h : WellFormed s (b :: rest)) : s.rootMemNode = b.addr ∧ s.rootMemNode ≠ NULL ∧
    pageCount s.mem s.rootMemNode = b.pages ∧ prev s.mem s.rootMemNode = NULL := by
  obtain ⟨hroot, hne, hcount, hprev, -⟩ := h.linked
  exact ⟨hroot, hne, hcount, hprev⟩

theorem WellFormed.nil_of_root (h : WellFormed s chunks) (hr : s.rootMemNode = NULL) : chunks = [] := by
  cases chunks with
  | nil => rfl
  | cons b rest => exact absurd hr h.first.2.1

/-- The second chunk, which its predecessor and its own link name. -/
theorem WellFormed.second {d : Block} (h : WellFormed s (b :: d :: rest)) :
    next s.mem s.rootMemNode = d.addr ∧ d.addr ≠ NULL ∧ prev s.mem d.addr = s.rootMemNode ∧
      b.addr.toNat + 4096 * b.pages.toNat ≤ d.addr.toNat ∧ InMemory d := by
  obtain ⟨-, -, -, -, hnext, hne, -, hprev, -⟩ := h.linked
  have hbehind := List.rel_of_pairwise_cons h.ascending List.mem_cons_self
  rw [hnext] at hne hprev
  exact ⟨hnext, hne, hprev, hbehind, h.placed d (List.mem_cons_of_mem b List.mem_cons_self)⟩

theorem WellFormed.le_of_covered (h : WellFormed s chunks) {x : Nat} (hx : x ∈ covered chunks) :
    s.rootMemNode.toNat ≤ x := by
  obtain ⟨d, hd, hxd⟩ := hx
  cases chunks with
  | nil => cases hd
  | cons b rest =>
      rw [h.first.1]
      have hle : d.addr.toNat ≤ x := hxd.1
      rcases List.mem_cons.mp hd with rfl | hd
      · exact hle
      · have hbehind := List.rel_of_pairwise_cons h.ascending hd
        omega

end Lists

section Alloc

variable {s : Pmm} {b : Block} {chunks rest : List Block} {n : U32}

/-- What a call of allocPage has to do with a list of chunks: give out the front of one
that is large enough, or nothing where there is none. -/
structure Allocated (chunks : List Block) (n : U32) (s : Pmm) (p : U32) : Prop where
  found : (∃ b ∈ chunks, n ≤ b.pages) → (∃ b ∈ chunks, n ≤ b.pages ∧ p = b.addr) ∧
    ∃ chunks', WellFormed s chunks' ∧ covered chunks' = covered chunks \ Block.extent ⟨p, n⟩
  exhausted : (∀ b ∈ chunks, b.pages < n) → p = NULL ∧ WellFormed s chunks

def Allocates (s : Pmm) (chunks : List Block) (n : U32) : Prop :=
  ∃ fuel s' p, allocPage fuel s n = some (s', p) ∧ Allocated chunks n s' p

theorem splitChunk_apart (h : WellFormed s (b :: rest)) (hn : n ≠ 0) (hlt : n < b.pages) :
    (b.addr + n * 4096).toNat = b.addr.toNat + 4096 * n.toNat ∧
      HeadersApart (s.rootMemNode + n * 4096) s.rootMemNode := by
  have hfits := (h.placed b List.mem_cons_self).fits
  have hnew : (b.addr + n * 4096).toNat = b.addr.toNat + 4096 * n.toNat := by
    bv_omega
  refine ⟨hnew, ?_⟩
  unfold HeadersApart
  rw [h.first.1, hnew]
  bv_omega

theorem splitChunk_ne_null (h : WellFormed s (b :: rest)) (hn : n ≠ 0) (hlt : n < b.pages) :
    b.addr + n * 4096 ≠ NULL := by
  obtain ⟨hnew, -⟩ := splitChunk_apart h hn hlt
  intro hnull
  have hzero : 0 = b.addr.toNat + 4096 * n.toNat := (congrArg BitVec.toNat hnull).symm.trans hnew
  bv_omega

/-- Taking the whole first chunk leaves a back link to it in the second. -/
theorem not_wellFormed_take {d : Block} (h : WellFormed s (b :: d :: rest)) (chunks' : List Block) :
    ¬ WellFormed (takeChunk s n s.rootMemNode) chunks' := by
  obtain ⟨hroot, hne, -, hprev⟩ := h.first
  obtain ⟨hnext, hdne, hback, -⟩ := h.second
  have htake : takeChunk s n s.rootMemNode =
      { s with rootMemNode := d.addr, memUsed := s.memUsed + n * 4096 } := by
    simp [takeChunk, hprev, hnext, hdne]
  intro h'
  rw [htake] at h'
  cases chunks' with
  | nil => exact hdne (wellFormed_nil_iff.mp h')
  | cons e rest' => exact hne (hback.symm.trans h'.first.2.2.2)

/-- Splitting the first chunk leaves a back link to the part that is given out. -/
theorem not_wellFormed_split {d : Block} (h : WellFormed s (b :: d :: rest)) (hn : n ≠ 0) (hlt : n < b.pages)
    (chunks' : List Block) : ¬ WellFormed (splitChunk s n s.rootMemNode) chunks' := by
  obtain ⟨hroot, -, -, hprev⟩ := h.first
  obtain ⟨hnext, hdne, hback, hbehind, hd⟩ := h.second
  obtain ⟨hnew, hapart⟩ := splitChunk_apart h hn hlt
  obtain ⟨-, -, hnewnext⟩ := splitHeader_new s.mem hapart
  have hpages := hd.nonempty
  have hfits := hd.fits
  have hdapart : HeadersApart (s.rootMemNode + n * 4096) d.addr := by
    unfold HeadersApart
    rw [hroot, hnew]
    bv_omega
  have hsame : SameHeader s.mem (splitHeader s.mem n s.rootMemNode) d.addr :=
    ((hdapart.setNext _ _).trans (hdapart.setPrev _ _)).trans (hdapart.setPageCount _ _)
  intro h'
  rw [splitChunk_root hprev hapart] at h'
  cases chunks' with
  | nil =>
      have hnull : s.rootMemNode + n * 4096 = NULL := wellFormed_nil_iff.mp h'
      rw [hroot] at hnull
      exact splitChunk_ne_null h hn hlt hnull
  | cons e rest' =>
      cases rest' with
      | nil =>
          obtain ⟨-, -, -, -, hlast⟩ := h'.linked
          exact hdne ((hnext.symm.trans hnewnext.symm).trans hlast)
      | cons e' rest' =>
          obtain ⟨hnext', -, hback', -⟩ := h'.second
          rw [← (hnewnext.trans hnext).symm.trans hnext', hsame.prev_eq, hback] at hback'
          have hmoved : s.rootMemNode = s.rootMemNode + n * 4096 := hback'
          rw [hroot] at hmoved
          have hequal := hnew.symm.trans (congrArg BitVec.toNat hmoved.symm)
          bv_omega

theorem allocates_nil (h : WellFormed s []) : Allocates s [] n := by
  refine ⟨0, s, NULL, ?_, ⟨?_, fun _ => ⟨rfl, h⟩⟩⟩
  · rw [allocPage, if_neg (not_not_intro (wellFormed_nil_iff.mp h))]
  · rintro ⟨b, hb, -⟩
    cases hb

theorem allocates_take (h : WellFormed s [b]) (hn : n = b.pages) : Allocates s [b] n := by
  obtain ⟨hroot, hne, hcount, hprev, hnext, -⟩ := wellFormed_singleton_iff.mp h
  have hpass : allocBody s n s.rootMemNode = .done (takeChunk s n s.rootMemNode, s.rootMemNode) := by
    rw [hroot, hn]
    simp [allocBody, hne, hcount]
  have htake : takeChunk s n s.rootMemNode =
      { s with rootMemNode := NULL, memUsed := s.memUsed + n * 4096 } := by
    rw [hroot]
    simp [takeChunk, hprev, hnext]
  have hle : n ≤ b.pages := by
    rw [hn]
    exact BitVec.le_refl _
  have hcall : allocPage 1 s n = some (takeChunk s n s.rootMemNode, s.rootMemNode) := by
    rw [allocPage, if_pos h.first.2.1, run_done hpass]
  refine ⟨1, _, _, hcall, ⟨fun _ => ⟨⟨b, List.mem_singleton_self b, hle, hroot⟩, [], ?_, ?_⟩, fun hnone => ?_⟩⟩
  · rw [htake]
    exact wellFormed_nil_iff.mpr rfl
  · rw [covered_nil, covered_singleton, hroot, hn, Set.sdiff_self]
  · exact absurd (hnone b (List.mem_singleton_self b)) (BitVec.not_lt.mpr hle)

theorem allocates_split (h : WellFormed s [b]) (hn : n ≠ 0) (hlt : n < b.pages) : Allocates s [b] n := by
  obtain ⟨hroot, hne, hcount, hprev, hnext, hb⟩ := wellFormed_singleton_iff.mp h
  obtain ⟨hnew, hapart⟩ := splitChunk_apart h hn hlt
  obtain ⟨hnewcount, hnewprev, hnewnext⟩ := splitHeader_new s.mem hapart
  rw [hroot] at hapart hnewcount hnewprev hnewnext
  have hle : n ≤ b.pages := BitVec.le_of_lt hlt
  have hpass : allocBody s n s.rootMemNode = .done (splitChunk s n s.rootMemNode, s.rootMemNode) := by
    have hother : b.pages ≠ n := by bv_omega
    rw [hroot]
    simp [allocBody, hne, hcount, hle, hother, hlt]
  have hsplit := splitChunk_root h.first.2.2.2 (by rw [hroot]; exact hapart)
  have hfits := hb.fits
  have hrest : (b.pages - n).toNat = b.pages.toNat - n.toNat := BitVec.toNat_sub_of_le hle
  have hcall : allocPage 1 s n = some (splitChunk s n s.rootMemNode, s.rootMemNode) := by
    rw [allocPage, if_pos h.first.2.1, run_done hpass]
  have hplaced : InMemory ⟨b.addr + n * 4096, b.pages - n⟩ := by
    constructor
    · show b.pages - n ≠ 0
      bv_omega
    · show (b.addr + n * 4096).toNat + 4096 * (b.pages - n).toNat ≤ 2 ^ 32
      rw [hnew, hrest]
      bv_omega
  have hlist : WellFormed (splitChunk s n s.rootMemNode) [⟨b.addr + n * 4096, b.pages - n⟩] := by
    rw [hsplit, hroot, wellFormed_singleton_iff]
    exact ⟨rfl, splitChunk_ne_null h hn hlt, hnewcount.trans (by rw [hcount]), hnewprev.trans hprev,
      hnewnext.trans hnext, hplaced⟩
  refine ⟨1, _, _, hcall, ⟨fun _ => ⟨⟨b, List.mem_singleton_self b, hle, hroot⟩, _, hlist, ?_⟩, fun hnone => ?_⟩⟩
  · ext x
    rw [covered_singleton, covered_singleton, hroot]
    simp only [Block.extent, hnew, hrest, Set.mem_Ico, Set.mem_sdiff]
    bv_omega
  · exact absurd (hnone b (List.mem_singleton_self b)) (BitVec.not_lt.mpr hle)

theorem single_of_allocates (h : WellFormed s (b :: rest)) (hn : n ≠ 0) (hserved : Allocates s (b :: rest) n) :
    rest = [] ∧ n ≤ b.pages := by
  obtain ⟨fuel, s', p, hcall, hspec⟩ := hserved
  obtain ⟨-, hne, hcount, -⟩ := h.first
  obtain ⟨-, hcases⟩ := allocPage_single hne hcall
  rw [hcount] at hcases
  have hle : n ≤ b.pages := by
    rcases hcases with ⟨heq, -⟩ | ⟨hlt, -⟩
    · rw [heq]
      exact BitVec.le_refl _
    · exact BitVec.le_of_lt hlt
  refine ⟨?_, hle⟩
  obtain ⟨-, chunks', hlist, -⟩ := hspec.found ⟨b, List.mem_cons_self, hle⟩
  cases rest with
  | nil => rfl
  | cons d rest =>
      rcases hcases with ⟨-, rfl⟩ | ⟨hlt, rfl⟩
      · exact absurd hlist (not_wellFormed_take h chunks')
      · exact absurd hlist (not_wellFormed_split h hn hlt chunks')

/-- For every free list: allocPage serves the empty one, and one of a single chunk that
is large enough. -/
theorem allocates_iff (h : WellFormed s chunks) (hn : n ≠ 0) :
    Allocates s chunks n ↔ chunks = [] ∨ ∃ b, chunks = [b] ∧ n ≤ b.pages := by
  constructor
  · intro hserved
    cases chunks with
    | nil => exact Or.inl rfl
    | cons b rest =>
        obtain ⟨rfl, hle⟩ := single_of_allocates h hn hserved
        exact Or.inr ⟨b, rfl, hle⟩
  · rintro (rfl | ⟨b, rfl, hle⟩)
    · exact allocates_nil h
    · by_cases heq : n = b.pages
      · exact allocates_take h heq
      · exact allocates_split h hn (by bv_omega)

def twoChunks : Pmm where
  mem a := if a = 0x20000 then 1 else if a = 0x20008 then 0x30000 else if a = 0x30000 then 2
    else if a = 0x30004 then 0x20000 else 0
  rootMemNode := 0x20000
  memFree := 0
  memUsed := 0

theorem twoChunks_wellFormed : WellFormed twoChunks [⟨0x20000, 1⟩, ⟨0x30000, 2⟩] := by
  refine ⟨?_, ?_, ?_⟩
  · simp only [Linked]
    decide
  · simp
  · intro b hb
    obtain rfl | rfl := List.mem_pair.mp hb
    all_goals exact ⟨by decide, by decide⟩

/-- Two pages are asked for, and the second chunk has two. -/
theorem second_chunk_missed : WellFormed twoChunks [⟨0x20000, 1⟩, ⟨0x30000, 2⟩] ∧
    ¬ Allocates twoChunks [⟨0x20000, 1⟩, ⟨0x30000, 2⟩] 2 := by
  refine ⟨twoChunks_wellFormed, fun h => ?_⟩
  have hnone := (single_of_allocates twoChunks_wellFormed (by decide) h).1
  cases hnone

def oneChunk : Pmm where
  mem a := if a = 0x20000 then 8 else 0
  rootMemNode := 0x20000
  memFree := 0
  memUsed := 0

theorem oneChunk_wellFormed : WellFormed oneChunk [⟨0x20000, 8⟩] :=
  wellFormed_singleton_iff.mpr ⟨rfl, by decide, rfl, rfl, rfl, by decide, by decide⟩

theorem oneChunk_allocates : Allocates oneChunk [⟨0x20000, 8⟩] 3 :=
  (allocates_iff oneChunk_wellFormed (by decide)).mpr (Or.inr ⟨_, rfl, by decide⟩)

end Alloc

section Free

variable {s : Pmm} {b : Block} {chunks rest : List Block}

/-- A block that freePage may be given: it is in memory, apart from the free chunks. -/
structure Returnable (chunks : List Block) (b : Block) : Prop where
  placed : InMemory b
  apart : ∀ d ∈ chunks, Disjoint b.extent d.extent

def Frees (s : Pmm) (chunks : List Block) (b : Block) : Prop :=
  ∃ fuel s' chunks', freePage fuel s b.addr b.pages = some s' ∧ WellFormed s' chunks' ∧
    covered chunks' = covered chunks ∪ b.extent

theorem frees_nil (h : WellFormed s []) (hb : InMemory b) (hne : b.addr ≠ NULL) : Frees s [] b := by
  have hcall : freePage 0 s b.addr b.pages = some { s with
      mem := setNext (setPrev (setPageCount s.mem b.addr b.pages) b.addr NULL) b.addr NULL,
      rootMemNode := b.addr, memUsed := s.memUsed - b.pages * 4096 } := by
    rw [freePage, if_pos ⟨hne, hb.nonempty⟩]
    simp [wellFormed_nil_iff.mp h]
  refine ⟨0, _, [b], hcall, wellFormed_singleton_iff.mpr ⟨rfl, hne, ?_, ?_, ?_, hb⟩, ?_⟩
  · simp
  · simp
  · simp
  · rw [covered_nil, covered_singleton, Set.empty_union]

/-- The scan stays for ever at a first chunk in front of the block. -/
theorem freePage_above (hr : s.rootMemNode ≠ NULL) {a n : U32} (ha : a ≠ NULL) (hn : n ≠ 0)
    (habove : ¬ a < s.rootMemNode) (fuel : Nat) : freePage fuel s a n = none := by
  have hstuck : freeBody s.mem a n s.rootMemNode = .next s.rootMemNode := by
    rw [freeBody, if_neg hr, if_neg habove]
  rw [freePage, if_pos ⟨ha, hn⟩]
  simp only [if_pos hr]
  cases hrun : run (freeBody s.mem a n) fuel s.rootMemNode with
  | none => rfl
  | some mem => exact absurd ⟨fuel, hrun⟩ (not_returns_of_stuck hstuck mem)

theorem Returnable.start_mem (hb : Returnable chunks b) : b.addr.toNat ∈ b.extent := by
  have hpages := hb.placed.nonempty
  exact Set.left_mem_Ico.mpr (by bv_omega)

/-- A call for the null pointer changes nothing, and no chunk of a list begins there. -/
theorem addr_ne_null_of_frees (hb : Returnable chunks b) (hfrees : Frees s chunks b) : b.addr ≠ NULL := by
  obtain ⟨fuel, s', chunks', hcall, hlist, hcovered⟩ := hfrees
  intro hnull
  rw [freePage, if_neg fun hargs => hargs.1 hnull] at hcall
  cases hcall
  have hin : b.addr.toNat ∈ covered chunks' := by
    rw [hcovered]
    exact Or.inr hb.start_mem
  have hle := hlist.le_of_covered hin
  have hroot : s.rootMemNode = NULL := by
    rw [hnull] at hle
    unfold NULL at *
    bv_omega
  obtain rfl := hlist.nil_of_root hroot
  obtain ⟨d, hd, -⟩ := hin
  cases hd

theorem nil_of_frees (h : WellFormed s chunks) (hb : Returnable chunks b) (hfrees : Frees s chunks b) :
    chunks = [] := by
  have hne := addr_ne_null_of_frees hb hfrees
  obtain ⟨fuel, s', chunks', hcall, hlist, hcovered⟩ := hfrees
  cases chunks with
  | nil => rfl
  | cons d rest =>
      have hr := h.first.2.1
      have hpages := hb.placed.nonempty
      by_cases hlt : b.addr < s.rootMemNode
      · obtain rfl := freePage_below hr hne hpages hcall
        have hroot : s.rootMemNode.toNat ≤ b.addr.toNat := by
          refine hlist.le_of_covered ?_
          rw [hcovered]
          exact Or.inr hb.start_mem
        exact absurd hlt (BitVec.not_lt.mpr (BitVec.le_def.mpr hroot))
      · rw [freePage_above hr hne hpages hlt] at hcall
        cases hcall

/-- For every free list and block: freePage puts the block on the list only if that is
empty, and never a block at the null pointer. -/
theorem frees_iff (h : WellFormed s chunks) (hb : Returnable chunks b) :
    Frees s chunks b ↔ chunks = [] ∧ b.addr ≠ NULL := by
  constructor
  · exact fun hfrees => ⟨nil_of_frees h hb hfrees, addr_ne_null_of_frees hb hfrees⟩
  · rintro ⟨rfl, hne⟩
    exact frees_nil h hb.placed hne

def noChunks : Pmm := { oneChunk with rootMemNode := NULL }

theorem noChunks_frees : Frees noChunks [] ⟨0x40000, 1⟩ :=
  (frees_iff (b := ⟨0x40000, 1⟩) (wellFormed_nil_iff.mpr rfl)
    ⟨⟨by decide, by decide⟩, fun _ hd => absurd hd List.not_mem_nil⟩).mpr ⟨rfl, by decide⟩

theorem behind_returnable : Returnable [⟨0x20000, 8⟩] ⟨0x40000, 1⟩ := by
  refine ⟨⟨by decide, by decide⟩, fun d hd => ?_⟩
  obtain rfl := List.mem_singleton.mp hd
  rw [Block.extent, Block.extent, Set.Ico_disjoint_Ico]
  decide

/-- The block behind the only chunk is never put on the list. -/
theorem block_behind_lost : WellFormed oneChunk [⟨0x20000, 8⟩] ∧ Returnable [⟨0x20000, 8⟩] ⟨0x40000, 1⟩ ∧
    ¬ Frees oneChunk [⟨0x20000, 8⟩] ⟨0x40000, 1⟩ := by
  refine ⟨oneChunk_wellFormed, behind_returnable, fun h => ?_⟩
  have hnone := nil_of_frees oneChunk_wellFormed behind_returnable h
  cases hnone

end Free

end MetalNes.FreeLists
