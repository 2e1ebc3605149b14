import MetalNes.KernelHeap
import Mathlib.Order.Interval.Finset.Nat

namespace MetalNes.Liballoc

open ByteWords PageChunks
open PageRuns (Block initialPages)
open Tilings

section Sizes

variable {size : U32}

theorem bucketOf_eq {n : Nat} (h8 : 8 ≤ n) (hlo : 2 ^ n ≤ size.toNat) (hhi : size.toNat < 2 ^ (n + 1)) :
    bucketOf size = n := by
  have h256 : 256 ≤ size.toNat := Nat.le_trans (Nat.pow_le_pow_right (n := 2) (by decide) h8) hlo
  obtain ⟨m, hexp, hm8, -, hmlo, hmhi⟩ := getexp_spec h256
  have hle : n < m + 1 := (Nat.pow_lt_pow_iff_right (by decide)).mp (Nat.lt_of_le_of_lt hlo hmhi)
  have hge : m < n + 1 := (Nat.pow_lt_pow_iff_right (by decide)).mp (Nat.lt_of_le_of_lt hmlo hhi)
  have heq : m = n := by omega
  rw [bucketOf, hexp, heq, if_neg (by simp only [MINEXP]; omega)]

theorem bucketOf_small (h : size.toNat ≤ 32704) : bucketOf size ≠ 15 := by
  intro heq
  by_cases h256 : 256 ≤ size.toNat
  · obtain ⟨n, hexp, hn8, -, hlo, -⟩ := getexp_spec h256
    rw [bucketOf, hexp, if_neg (by simp only [MINEXP]; omega)] at heq
    obtain rfl : n = 15 := by omega
    omega
  · rw [bucketOf, getexp_small (by omega), if_pos (by decide)] at heq
    exact absurd heq (by decide)

theorem pagesFor_small (h : size.toNat ≤ 32704) : pagesFor size = 16 := by
  have husage : (size + sizeofTag).toNat = size.toNat + 32 := by
    simp only [sizeofTag]
    bv_omega
  have hdiv : ((size + sizeofTag) / pageSize).toNat = (size.toNat + 32) / 4096 := by
    rw [BitVec.toNat_udiv, husage]
    rfl
  have hsixteen : (pageCount : U32).toNat = 16 := rfl
  simp only [pagesFor]
  split_ifs with hrest hsmall hsmall
  · rfl
  · rw [BitVec.lt_def, hsixteen] at hsmall
    bv_omega
  · rfl
  · rw [BitVec.lt_def, hsixteen, hdiv] at hsmall
    omega

end Sizes

section Spread

variable {σ : Type} {hooks : Hooks σ} {Owned : σ → Bytes → List Block → Prop} {h h' : Heap σ} {live : List Object}
variable {size p : U32} {fuel : Nat}

/-- Each object has pages of its own, and what is left of them is in the list of index 15. -/
def Spread (Owned : σ → Bytes → List Block → Prop) (h : Heap σ) (live : List Object) : Prop :=
  ∃ runs chain, h.Good runs chain live none ∧ Owned h.below h.mem (runs.map PageRun.block) ∧
    (∀ t ∈ allTags runs, indexOf h.mem t = -1 ∨ indexOf h.mem t = 15) ∧
    (∀ r ∈ runs, r.block.pages = 16) ∧ runs.length = live.length

theorem spread_start (hinit : h.initialized = false) (ho : Owned h.below h.mem []) : Spread Owned (initLists h) [] :=
  ⟨[], fun _ => [], good_start hinit, by rwa [(initLists_mem h).1, (initLists_mem h).2],
    List.forall_mem_nil _, List.forall_mem_nil _, rfl⟩

/-- A small object never fits into what is left: its index is not looked for there. -/
theorem malloc_spread (hl : Lawful hooks Owned) (hinit : h.initialized = true) (hspread : Spread Owned h live)
    (hsize : size.toNat ≤ 32704) (hcall : malloc hooks fuel h size = some (h', p)) :
    h'.initialized = true ∧ Spread Owned h' (if p = NULL then live else ⟨p, size⟩ :: live) := by
  obtain ⟨runs, chain, hs, ho, hindex, hsixteen, hcount⟩ := hspread
  obtain ⟨h8, h32⟩ := bucketOf_range size
  have hempty : chain (bucketOf size) = [] := by
    refine List.eq_nil_iff_forall_not_mem.mpr fun t ht => ?_
    obtain ⟨htag, hidx⟩ := hs.shape.buckets.chain_free (by omega) h32 ht
    have hsmall := bucketOf_small hsize
    rcases hindex t htag with hused | hfree
    · rw [show indexOf h.mem t = bucketOf size from hidx] at hused
      omega
    · exact hsmall ((show indexOf h.mem t = bucketOf size from hidx).symm.trans hfree)
  have hfound := (malloc_found hooks size hs hinit).2 fuel _ hcall
  rw [hempty, List.find?_nil, Option.getD_none, mallocFound, if_pos rfl] at hfound
  obtain ⟨⟨h₁, t⟩, hnew, hreturn⟩ := Option.map_eq_some_iff.mp hfound
  obtain ⟨hinit₁, hkept, hsame, ⟨htag, hgood, howned⟩ | ⟨htag, b, rfl, hpages, hgood, howned, hreal, hroom⟩⟩ :=
    allocateNewTag_spec hl hs ho (by omega) hnew
  · simp only [if_pos htag] at hreturn
    obtain ⟨rfl, rfl⟩ := Prod.mk.inj hreturn
    refine ⟨hinit₁.trans hinit, runs, chain, hgood, howned, fun t ht => ?_, hsixteen, hcount⟩
    rw [hsame t ht]
    exact hindex t ht
  · simp only [if_neg htag] at hreturn
    have hgood' : h₁.Good ([] ++ ⟨b, [] ++ b.addr :: []⟩ :: runs) chain live (some b.addr) := hgood
    have hcarved := carveTag_good hgood' (fun r hr => absurd hr (Option.not_mem_none r)) hroom
    rw [hreturn] at hcarved
    have hp := (hcarved.inv hl howned).1
    obtain ⟨runs', chain', hgood', hblocks, hleaves⟩ := hcarved.good
    have hclass : bucketOf (get h₁.mem b.addr .realSize - sizeofTag - size - sizeofTag) = 15 := by
      have hrest : (get h₁.mem b.addr .realSize - sizeofTag - size - sizeofTag).toNat = 65472 - size.toNat := by
        rw [hreal, hpages, pagesFor_small hsize]
        simp only [sizeofTag, pageSize]
        bv_omega
      exact bucketOf_eq (n := 15) (by decide) (by rw [hrest]; omega) (by rw [hrest]; omega)
    rw [hclass] at hleaves
    refine ⟨hcarved.within.initialized_eq.trans (hinit₁.trans hinit), ?_⟩
    rw [if_neg hp]
    refine ⟨runs', chain', hgood', ?_, fun t ht => ?_, fun r hr => ?_, ?_⟩
    · rw [hblocks, hcarved.within.below_eq]
      exact hl.write howned hcarved.within.touched.inside
    · rcases hleaves t ht with hused | ⟨hold, hkeep⟩ | hnew
      · exact Or.inl hused
      · rw [hkeep]
        rcases (allTags_middle [] runs _ t).mp hold with htb | hold
        · obtain rfl := List.mem_singleton.mp htb
          exact Or.inl (hgood.held b.addr rfl).2
        · rw [hsame t hold]
          exact hindex t hold
      · exact Or.inr hnew
    · have hblock := List.mem_map_of_mem (f := PageRun.block) hr
      rw [hblocks] at hblock
      rcases List.mem_cons.mp hblock with heq | hold
      · rw [heq]
        exact hpages.trans (pagesFor_small hsize)
      · have hold : r.block ∈ runs.map PageRun.block := hold
        obtain ⟨r', hr', heq⟩ := List.mem_map.mp hold
        rw [← heq]
        exact hsixteen r' hr'
    · have hlength := congrArg List.length hblocks
      simp only [List.length_map, List.nil_append, List.length_cons] at hlength ⊢
      omega

theorem Spread.write (hl : Lawful hooks Owned) (hspread : Spread Owned h live) {mem : Bytes}
    (hmem : ∀ a, (∀ o ∈ live, a ∉ o.extent) → mem a = h.mem a) : Spread Owned { h with mem } live := by
  obtain ⟨runs, chain, hs, ho, hindex, hsixteen, hcount⟩ := hspread
  refine ⟨runs, chain, hs.read fun t ht f => hs.tags_kept hmem ht f, hs.writes_inside hl ho hmem, fun t ht => ?_,
    hsixteen, hcount⟩
  rw [indexOf, show get mem t .index = _ from hs.tags_kept hmem ht .index]
  exact hindex t ht

/-- A call of malloc for a small object, or a write. -/
def SmallCall (_ : Config σ) (e : Call) : Prop :=
  (∃ size : U32, e = .malloc size ∧ size.toNat ≤ 32704) ∨ ∃ bytes, e = .writes bytes

theorem Step.spread (hl : Lawful hooks Owned) {c c' : Config σ} {e : Call} (hc : Spread Owned (initLists c.heap) c.live)
    (hstep : Step hooks Owned c e c') (hcall : SmallCall c e) : Spread Owned (initLists c'.heap) c'.live := by
  rcases hcall with ⟨size, rfl, hsize⟩ | ⟨bytes, rfl⟩
  · cases hstep with
    | malloc fuel _ hmalloc =>
        rw [← malloc_initLists] at hmalloc
        obtain ⟨hinit, hspread⟩ := malloc_spread hl (initLists_initialized c.heap) hc hsize hmalloc
        rwa [initLists_eq hinit]
  · cases hstep with
    | writes mem hin hmem =>
        have hspread : Spread Owned { initLists c.heap with mem } c.live := hc.write hl fun a ha => by
          rw [(initLists_mem c.heap).1]
          exact hmem a fun hbytes => (hin a hbytes).elim fun o ho => ha o ho.1 ho.2
        have hsame : initLists { c.heap with mem } = { initLists c.heap with mem } := by
          unfold initLists
          split_ifs <;> rfl
        rwa [← hsame] at hspread

theorem trace_spread (hl : Lawful hooks Owned) (hinit : h.initialized = false) (hown : Owned h.below h.mem [])
    {steps : List (Call × Config σ)} (hrun : Runs.Trace (Step hooks Owned) ⟨h, []⟩ steps)
    (hsmall : Runs.Meets SmallCall ⟨h, []⟩ steps) : ∀ x ∈ steps, Spread Owned (initLists x.2.heap) x.2.live :=
  @Runs.Trace.invariant_of _ _ _ SmallCall (fun c => Spread Owned (initLists c.heap) c.live) _ _ hrun
    (fun _ _ _ hc hstep hcall => hstep.spread hl hc hcall) hsmall (spread_start hinit hown)

end Spread

section Boot

variable {k : KernelImage} {mem : Bytes} {pagesFuel : Nat} {steps : List (Call × Config Pages)} {c : Config Pages}

theorem spread_pages {s : Heap Pages} {live : List Object} (hspread : Spread (PagesOwned k) s live) :
    16 * live.length ≤ (initialPages k).toNat := by
  obtain ⟨runs, chain, hs, ⟨others, howned⟩, -, hsixteen, hcount⟩ := hspread
  have hin : ∀ b ∈ runs.map PageRun.block, b.extent ⊆ PageRuns.region k := fun b hb =>
    howned.exclusive.inside b (List.mem_append_left others hb)
  have hpages : ∀ b ∈ runs.map PageRun.block, b.pages = 16 := fun b hb => by
    obtain ⟨r, hr, rfl⟩ := List.mem_map.mp hb
    exact hsixteen r hr
  have hsum := RegionPool.length_mul_le
    (fun b : Block => Finset.Ico b.addr.toNat (b.addr.toNat + 4096 * b.pages.toNat))
    (Finset.Ico k.kernelEnd.toNat (k.kernelEnd.toNat + 4096 * (initialPages k).toNat))
    (hs.shape.disjoint.imp fun hapart => Finset.disjoint_coe.mp (by
      simpa only [Finset.coe_Ico, Block.extent] using hapart))
    (fun b hb => Finset.coe_subset.mp (by simpa only [Finset.coe_Ico, Block.extent, PageRuns.region] using hin b hb))
    (n := 65536) fun b hb => by
      rw [hpages b hb, Nat.card_Ico, Nat.add_sub_cancel_left]
      decide
  rw [List.length_map, Nat.card_Ico, hcount] at hsum
  omega

/-- As long as nothing is freed, every small object takes sixteen pages, however small it is. -/
theorem boot_small_objects (hrun : BootRun k mem pagesFuel steps)
    (hsmall : Runs.Meets SmallCall ⟨bootHeap k mem, []⟩ steps) :
    ∀ x ∈ steps, 16 * x.2.live.length ≤ (initialPages k).toNat := by
  have hspread := trace_spread (pageHooks_lawful k pagesFuel) rfl (bootHeap_owned k mem) hrun hsmall
  exact fun x hx => spread_pages (hspread x hx)

theorem boot_small_objects_first : ∃ h₁ h₂, BootRun PageRuns.smallestImage (fun _ => 0) 1
      [(.malloc 100, ⟨h₁, [⟨0x20020, 100⟩]⟩), (.malloc 200, ⟨h₂, [⟨0x30020, 200⟩, ⟨0x20020, 100⟩]⟩)] ∧
    16 * [(⟨0x30020, 200⟩ : Object), ⟨0x20020, 100⟩].length ≤ (initialPages PageRuns.smallestImage).toNat := by
  obtain ⟨h₁, h₂, h₃, -, -, hrun⟩ := bootRun_second
  cases hrun with
  | cons hfirst hrest =>
      cases hrest with
      | cons hsecond _ =>
          have htwo : BootRun PageRuns.smallestImage (fun _ => 0) 1
              [(.malloc 100, ⟨h₁, [⟨0x20020, 100⟩]⟩), (.malloc 200, ⟨h₂, [⟨0x30020, 200⟩, ⟨0x20020, 100⟩]⟩)] :=
            .cons hfirst (.cons hsecond (.nil _))
          have hsmall : Runs.Meets SmallCall ⟨bootHeap PageRuns.smallestImage fun _ => 0, []⟩
              [(.malloc 100, ⟨h₁, [⟨0x20020, 100⟩]⟩), (.malloc 200, ⟨h₂, [⟨0x30020, 200⟩, ⟨0x20020, 100⟩]⟩)] :=
            ⟨Or.inl ⟨100, rfl, by decide⟩, Or.inl ⟨200, rfl, by decide⟩, trivial⟩
          exact ⟨h₁, h₂, htwo, boot_small_objects htwo hsmall _ (List.mem_cons_of_mem _ List.mem_cons_self)⟩

end Boot

end MetalNes.Liballoc
