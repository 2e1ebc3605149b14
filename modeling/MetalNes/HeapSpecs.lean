import MetalNes.HeapCalls

namespace MetalNes.Liballoc

open ByteWords Loop
open PageChunks (NULL)
open PageRuns (Block)
open Segments Tilings

variable {σ : Type}

/-- What liballoc counts on: the hooks give out pages that nobody else has, leave those
that are out alone, and do not mind what is written to them. -/
structure Lawful (hooks : Hooks σ) (Owned : σ → Bytes → List Block → Prop) : Prop where
  alloc : ∀ {s s' m m' held n p}, Owned s m held → n ≠ 0 → hooks.liballocAlloc s m n = some (p, s', m') →
    (∀ b ∈ held, ∀ a ∈ b.extent, m' a = m a) ∧
      (p = NULL ∧ Owned s' m' held ∨ p ≠ NULL ∧ Owned s' m' (⟨p, n⟩ :: held))
  free : ∀ {s s' m m' pre b post}, Owned s m (pre ++ b :: post) →
    hooks.liballocFree s m b.addr b.pages = some (s', m') →
    (∀ c ∈ pre ++ post, ∀ a ∈ c.extent, m' a = m a) ∧ Owned s' m' (pre ++ post)
  write : ∀ {s m m' held}, Owned s m held → (∀ a, (∀ b ∈ held, a ∉ b.extent) → m' a = m a) → Owned s m' held
  disjoint : ∀ {s m held}, Owned s m held → held.Pairwise fun b c => Disjoint b.extent c.extent
  fits : ∀ {s m held}, Owned s m held → ∀ b ∈ held, b.addr.toNat + 4096 * b.pages.toNat < 2 ^ 32

/-- The heap between two calls, with the objects that are out. -/
def Inv (Owned : σ → Bytes → List Block → Prop) (h : Heap σ) (live : List Object) : Prop :=
  ∃ runs chain, h.Good runs chain live none ∧ Owned h.below h.mem (runs.map PageRun.block)

def Kept (live : List Object) (mem mem' : Bytes) : Prop := ∀ o ∈ live, ∀ a ∈ o.extent, mem' a = mem a

theorem Kept.trans {live : List Object} {mem mem' mem'' : Bytes} (h : Kept live mem mem') (h' : Kept live mem' mem'') :
    Kept live mem mem'' := fun o ho a ha => (h' o ho a ha).trans (h o ho a ha)

theorem pagesFor_spec {size : U32} (h : size.toNat + 32 < 2 ^ 32) :
    16 ≤ (pagesFor size).toNat ∧ size.toNat + 32 ≤ 4096 * (pagesFor size).toNat := by
  have husage : (size + sizeofTag).toNat = size.toNat + 32 := by
    simp only [sizeofTag]
    bv_omega
  have hdiv : ((size + sizeofTag) / pageSize).toNat = (size.toNat + 32) / 4096 := by
    rw [BitVec.toNat_udiv, husage]
    rfl
  have hmod : ((size + sizeofTag) % pageSize).toNat = (size.toNat + 32) % 4096 := by
    rw [BitVec.toNat_umod, husage]
    rfl
  have hround : ((size + sizeofTag) / pageSize + 1).toNat = (size.toNat + 32) / 4096 + 1 := by
    bv_omega
  have hexact : (size + sizeofTag) % pageSize = 0 → (size.toNat + 32) % 4096 = 0 := fun heq => by
    rw [← hmod, heq]
    rfl
  have hsixteen : (pageCount : U32).toNat = 16 := rfl
  simp only [pagesFor]
  split_ifs with hrest hsmall hsmall
  · rw [BitVec.lt_def, hround, hsixteen] at hsmall
    rw [hsixteen]
    omega
  · rw [BitVec.lt_def, hround, hsixteen] at hsmall
    rw [hround]
    omega
  · have hzero := hexact (not_not.mp hrest)
    rw [BitVec.lt_def, hdiv, hsixteen] at hsmall
    rw [hsixteen]
    omega
  · have hzero := hexact (not_not.mp hrest)
    rw [BitVec.lt_def, hdiv, hsixteen] at hsmall
    rw [hdiv]
    omega

section Calls

variable {hooks : Hooks σ} {Owned : σ → Bytes → List Block → Prop} {h h' : Heap σ} {runs : List PageRun}
variable {chain : Int → List U32} {live before after : List Object} {o : Object} {size p t : U32} {fuel : Nat}

theorem Sound.object_in_run {F : Fields} {freePages : Int → U32} {completePages : Int → Int} {hand : Option U32}
    (hs : Sound F freePages completePages runs chain live hand) (ho : o ∈ live) :
    ∃ b ∈ runs.map PageRun.block, ∀ a ∈ o.extent, a ∈ b.extent := by
  obtain ⟨t, ht, -, -, hptr, -, hend⟩ := hs.object_place ho
  obtain ⟨r, hr, htr⟩ := mem_allTags.mp ht
  have hin := (hs.shape.run_shape r hr).inside htr
  refine ⟨r.block, List.mem_map_of_mem hr, fun a ha => ?_⟩
  have hlo : o.ptr.toNat ≤ a := ha.1
  have hhi : a < o.ptr.toNat + o.size.toNat := ha.2
  exact ⟨by omega, show a < r.stop by omega⟩

/-- Memory that is kept in the pages keeps the tags and the objects. -/
theorem Sound.of_pages {freePages : Int → U32} {completePages : Int → Int} {mem mem' : Bytes}
    (hs : Sound (get mem) freePages completePages runs chain live none)
    (hkeep : ∀ b ∈ runs.map PageRun.block, ∀ a ∈ b.extent, mem' a = mem a) :
    Sound (get mem') freePages completePages runs chain live none ∧ Kept live mem mem' := by
  refine ⟨hs.read fun t ht f => ?_, fun o ho a ha => ?_⟩
  · obtain ⟨r, hr, htr⟩ := mem_allTags.mp ht
    have hin := (hs.shape.run_shape r hr).inside htr
    have hbig := hs.shape.big ht
    have hoffset := f.offset_le
    refine load_congr fun i hi => hkeep r.block (List.mem_map_of_mem hr) _ ⟨by omega, ?_⟩
    show t.toNat + f.offset + i < r.stop
    omega
  · obtain ⟨b, hb, hin⟩ := hs.object_in_run ho
    exact hkeep b hb a (hin a ha)

theorem allocateNewTag_spec (hl : Lawful hooks Owned) (hs : h.Good runs chain live none)
    (ho : Owned h.below h.mem (runs.map PageRun.block)) (hsize : size.toNat + 32 < 2 ^ 32)
    (hcall : allocateNewTag hooks h size = some (h', t)) :
    h'.initialized = h.initialized ∧ Kept live h.mem h'.mem ∧
      (∀ u ∈ allTags runs, indexOf h'.mem u = indexOf h.mem u) ∧
      (t = NULL ∧ h'.Good runs chain live none ∧ Owned h'.below h'.mem (runs.map PageRun.block) ∨
        t ≠ NULL ∧ ∃ b : Block, b.addr = t ∧ b.pages = pagesFor size ∧
          h'.Good (⟨b, [t]⟩ :: runs) chain live (some t) ∧
          Owned h'.below h'.mem ((⟨b, [t]⟩ :: runs).map PageRun.block) ∧
          get h'.mem t .realSize = b.pages * pageSize ∧ size.toNat + 32 ≤ Fields.len (get h'.mem) t) := by
  obtain ⟨h16, hfit⟩ := pagesFor_spec hsize
  rw [allocateNewTag, Option.map_eq_some_iff] at hcall
  obtain ⟨⟨tag, below, mem⟩, halloc, hreturn⟩ := hcall
  have hpages : pagesFor size ≠ 0 := by
    intro heq
    rw [heq] at h16
    exact absurd h16 (by decide)
  obtain ⟨hkeep, hcases⟩ := hl.alloc ho hpages halloc
  obtain ⟨hs', hkept⟩ := Sound.of_pages hs hkeep
  have hindex : ∀ u ∈ allTags runs, indexOf mem u = indexOf h.mem u := fun u hu => by
    obtain ⟨r, hr, hur⟩ := mem_allTags.mp hu
    have hin := (hs'.shape.run_shape r hr).inside hur
    have hbig := hs'.shape.big hu
    refine congrArg BitVec.toInt (load_congr fun i hi => ?_)
    refine hkeep r.block (List.mem_map_of_mem hr) _ ⟨by omega, ?_⟩
    show u.toNat + 12 + i < r.stop
    omega
  rcases hcases with ⟨hnull, howned⟩ | ⟨hne, howned⟩
  · simp only [if_pos hnull] at hreturn
    obtain ⟨rfl, rfl⟩ := Prod.mk.inj hreturn
    exact ⟨rfl, hkept, hindex, Or.inl ⟨rfl, hs', howned⟩⟩
  · simp only [if_neg hne] at hreturn
    obtain ⟨rfl, rfl⟩ := Prod.mk.inj hreturn
    have hfits := hl.fits howned _ List.mem_cons_self
    have hdisjoint : ∀ r ∈ runs, Disjoint (Block.extent ⟨tag, pagesFor size⟩) r.block.extent := fun r hr =>
      List.rel_of_pairwise_cons (hl.disjoint howned) (List.mem_map_of_mem hr)
    have hfresh := hs'.fresh hdisjoint hne h16 hfits size
    have ht := (hfresh.held tag rfl).1
    have hw := freshTag_wrote (Wrote.refl _ mem) hfresh.shape.apart ht size (pagesFor size)
    have htouched := hfresh.touched hw
    have hreal : get (freshTag mem tag size (pagesFor size)) tag .realSize = pagesFor size * pageSize := by
      rw [hw.fields tag ht]
      simp [Fields.freshTag]
    have hpos : 0 < tag.toNat := by
      simp only [NULL] at hne
      bv_omega
    have hnat : (pagesFor size * pageSize).toNat = 4096 * (pagesFor size).toNat := by
      simp only [pageSize]
      simp only at hfits
      bv_omega
    refine ⟨rfl, hkept.trans htouched.kept, fun u hu => ?_, Or.inr ⟨hne, ⟨tag, pagesFor size⟩, rfl, rfl,
      hfresh.read hw.fields, hl.write howned htouched.inside, hreal, ?_⟩⟩
    · have hut : u ≠ tag := by
        rintro rfl
        obtain ⟨r, hr, hur⟩ := mem_allTags.mp hu
        refine Set.disjoint_left.mp (hdisjoint r hr) ?_ ((hs'.shape.run_shape r hr).mem_extent hur)
        exact (hfresh.shape.run_shape _ List.mem_cons_self).mem_extent List.mem_cons_self
      have hsame : Fields.freshTag (get mem) tag size (pagesFor size) u .index = get mem u .index := by
        simp [Fields.freshTag, hut]
      have hold : u ∈ allTags (⟨⟨tag, pagesFor size⟩, [tag]⟩ :: runs) := List.mem_append_right [tag] hu
      rw [← hindex u hu, indexOf, hw.fields u hold, hsame]
      rfl
    · rw [Fields.len, hreal, hnat]
      exact hfit

theorem search_spec (hs : h.Good runs chain live none) {i : Int} (h0 : 0 ≤ i) (h32 : i < 32)
    (hsize : size.toNat + 32 < 2 ^ 32) (hrun : run (searchBody h.mem size) fuel (h.freePages i) = some t) :
    t = NULL ∨ t ∈ chain i ∧ size.toNat + 64 ≤ Fields.len (get h.mem) t := by
  have hlist := hs.shape.buckets.linked i h0 h32
  have hstart : h.freePages i = NULL ∨ h.freePages i ∈ chain i := by
    rw [hlist.start]
    cases chain i with
    | nil => exact Or.inl rfl
    | cons c rest => exact Or.inr List.mem_cons_self
  refine run_invariant (P := fun u => u = NULL ∨ u ∈ chain i)
    (Q := fun u => u = NULL ∨ u ∈ chain i ∧ size.toNat + 64 ≤ Fields.len (get h.mem) u)
    (fun u v hu hnext => ?_) (fun u v hu hdone => ?_) hstart hrun
  · rw [searchBody] at hnext
    split_ifs at hnext with hnull hfit
    obtain rfl := Iter.next.inj hnext
    exact (hlist.next_mem (hu.resolve_left hnull)).symm
  · rw [searchBody] at hdone
    split_ifs at hdone with hnull hfit
    · obtain rfl := Iter.done.inj hdone
      exact Or.inl hnull
    · obtain rfl := Iter.done.inj hdone
      have hmem := hu.resolve_left hnull
      have hbig := hs.shape.big (hs.shape.buckets.chain_free h0 h32 hmem).1
      refine Or.inr ⟨hmem, ?_⟩
      simp only [Fields.len, sizeofTag] at *
      bv_omega

theorem initLists_eq (hinit : h.initialized = true) : initLists h = h := by
  rw [initLists, if_pos hinit]

theorem malloc_index (size : U32) :
    (if getexp size + MODE < MINEXP then (MINEXP : Int) else getexp size + MODE) = bucketOf size := by
  simp only [bucketOf, MODE, Int.add_zero]

theorem Carved.inv (hl : Lawful hooks Owned) (hc : Carved live runs h t size h' p)
    (ho : Owned h.below h.mem (runs.map PageRun.block)) :
    p ≠ NULL ∧ Kept live h.mem h'.mem ∧ h'.initialized = h.initialized ∧ Inv Owned h' (⟨p, size⟩ :: live) := by
  obtain ⟨runs', chain', hgood, hblocks, -⟩ := hc.good
  obtain ⟨u, -, -, -, hptr, -⟩ := hgood.object_place List.mem_cons_self
  refine ⟨?_, hc.within.touched.kept, hc.within.initialized_eq, runs', chain', hgood, ?_⟩
  · rintro rfl
    exact absurd hptr.symm (Nat.succ_ne_zero _)
  · rw [hc.within.below_eq, hblocks]
    exact hl.write ho hc.within.touched.inside

theorem exists_middle {runs : List PageRun} {t : U32} (ht : t ∈ allTags runs) :
    ∃ pre b xs ys post, runs = pre ++ ⟨b, xs ++ t :: ys⟩ :: post := by
  obtain ⟨⟨b, tags⟩, hr, htr⟩ := mem_allTags.mp ht
  obtain ⟨pre, post, rfl⟩ := List.append_of_mem hr
  obtain ⟨xs, ys, rfl⟩ := List.append_of_mem htr
  exact ⟨pre, b, xs, ys, post, rfl⟩

theorem malloc_spec (hl : Lawful hooks Owned) (hinit : h.initialized = true) (hinv : Inv Owned h live)
    (hsize : size.toNat + 32 < 2 ^ 32) (hcall : malloc hooks fuel h size = some (h', p)) :
    h'.initialized = true ∧ Kept live h.mem h'.mem ∧
      (p = NULL ∧ Inv Owned h' live ∨ p ≠ NULL ∧ Inv Owned h' (⟨p, size⟩ :: live)) := by
  obtain ⟨runs, chain, hs, ho⟩ := hinv
  obtain ⟨h8, h32⟩ := bucketOf_range size
  rw [malloc, initLists_eq hinit] at hcall
  simp only [malloc_index] at hcall
  obtain ⟨t, hsearch, hcall⟩ := Option.bind_eq_some_iff.mp hcall
  have hfound := search_spec hs (by omega) h32 hsize hsearch
  by_cases hnull : t = NULL
  · rw [if_pos hnull] at hcall
    obtain ⟨⟨h₁, tag⟩, hnew, hreturn⟩ := Option.map_eq_some_iff.mp hcall
    obtain ⟨hinit₁, hkept, -, ⟨htag, hgood, howned⟩ | ⟨htag, b, rfl, -, hgood, howned, -, hroom⟩⟩ :=
      allocateNewTag_spec hl hs ho hsize hnew
    · simp only [if_pos htag] at hreturn
      obtain ⟨rfl, rfl⟩ := Prod.mk.inj hreturn
      exact ⟨hinit₁.trans hinit, hkept, Or.inl ⟨rfl, runs, chain, hgood, howned⟩⟩
    · simp only [if_neg htag] at hreturn
      have hgood' : h₁.Good ([] ++ ⟨b, [] ++ b.addr :: []⟩ :: runs) chain live (some b.addr) := hgood
      have hcarved := carveTag_good hgood' (fun r hr => absurd hr (Option.not_mem_none r)) hroom
      rw [hreturn] at hcarved
      obtain ⟨hp, hkept', hinit', hinv⟩ := hcarved.inv hl howned
      exact ⟨hinit'.trans (hinit₁.trans hinit), hkept.trans hkept', Or.inr ⟨hp, hinv⟩⟩
  · rw [if_neg hnull] at hcall
    obtain ⟨hmem, hroom⟩ := hfound.resolve_left hnull
    obtain ⟨ht, hidx⟩ := hs.shape.buckets.chain_free (by omega) h32 hmem
    obtain ⟨pre, b, xs, ys, post, rfl⟩ := exists_middle ht
    obtain ⟨chain', hgood, haround, hreal, hwithin⟩ := takeTag_good hs hidx (by omega)
    have hfit : size.toNat + 32 ≤ Fields.len (get (takeTag h t (bucketOf size)).mem) t := by
      rw [Fields.len, hreal]
      exact Nat.le_trans (Nat.add_le_add_left (by decide) _) hroom
    have hcarved := carveTag_good hgood haround.2 hfit
    rw [Option.some.inj hcall] at hcarved
    have howned : Owned (takeTag h t (bucketOf size)).below (takeTag h t (bucketOf size)).mem
        ((pre ++ ⟨b, xs ++ t :: ys⟩ :: post).map PageRun.block) := by
      rw [hwithin.below_eq]
      exact hl.write ho hwithin.touched.inside
    obtain ⟨hp, hkept, hinit', hinv⟩ := hcarved.inv hl howned
    exact ⟨hinit'.trans (hwithin.initialized_eq.trans hinit), Kept.trans hwithin.touched.kept hkept,
      Or.inr ⟨hp, hinv⟩⟩

end Calls

end MetalNes.Liballoc
