import MetalNes.HeapRuns

namespace MetalNes.Liballoc

open ByteWords Loop
open PageChunks (NULL)
open PageRuns (Block)
open Segments Tilings

variable {σ : Type} {hooks : Hooks σ} {Owned : σ → Bytes → List Block → Prop} {h h' : Heap σ}
variable {runs : List PageRun} {chain : Int → List U32} {live before after : List Object} {o : Object}
variable {p t size : U32} {fuel : Nat}

def fits (mem : Bytes) (size tag : U32) : Bool := size + sizeofTag ≤ get mem tag .realSize - sizeofTag

theorem search_returns {mem : Bytes} {xs : List U32} (size : U32) (hpath : Path NULL (get mem · .next) p xs NULL) :
    Returns (searchBody mem size) p ((xs.find? (fits mem size)).getD NULL) := by
  induction xs generalizing p with
  | nil =>
      obtain rfl : p = NULL := hpath
      exact .of_done (if_pos rfl)
  | cons a rest ih =>
      obtain ⟨rfl, hne, hrest⟩ := hpath
      by_cases hfit : fits mem size p = true
      · rw [List.find?_cons_of_pos hfit]
        refine .of_done ?_
        rw [searchBody, if_neg hne, if_pos (of_decide_eq_true hfit)]
        rfl
      · rw [List.find?_cons_of_neg hfit]
        refine .of_next ?_ (ih hrest)
        rw [searchBody, if_neg hne, if_neg (of_decide_eq_false (Bool.not_eq_true _ ▸ hfit))]

theorem fits_iff (hs : h.Good runs chain live none) (ht : t ∈ allTags runs) (hsize : size.toNat + 32 < 2 ^ 32) :
    fits h.mem size t = true ↔ size.toNat + 64 ≤ Fields.len (get h.mem) t := by
  have hbig := hs.shape.big ht
  rw [fits, decide_eq_true_iff, BitVec.le_def]
  simp only [Fields.len, sizeofTag] at *
  have hsum : (size + 32).toNat = size.toNat + 32 := by bv_omega
  have hdiff : (get h.mem t .realSize - 32).toNat = (get h.mem t .realSize).toNat - 32 := by bv_omega
  rw [hsum, hdiff]
  omega

/-- What malloc does once the search is over. -/
def mallocFound (hooks : Hooks σ) (h : Heap σ) (size tag : U32) : Option (Heap σ × U32) :=
  if tag = NULL then
    (allocateNewTag hooks h size).map fun (h, tag) => if tag = NULL then (h, NULL) else carveTag h tag size
  else some (carveTag (takeTag h tag (bucketOf size)) tag size)

theorem malloc_eq (hinit : h.initialized = true) : malloc hooks fuel h size =
    (run (searchBody h.mem size) fuel (h.freePages (bucketOf size))).bind (mallocFound hooks h size) := by
  rw [malloc, initLists_eq hinit]
  simp only [malloc_index]
  rfl

theorem malloc_found (hooks : Hooks σ) (size : U32) (hs : h.Good runs chain live none) (hinit : h.initialized = true) :
    (∃ fuel, malloc hooks fuel h size =
      mallocFound hooks h size (((chain (bucketOf size)).find? (fits h.mem size)).getD NULL)) ∧
    ∀ fuel r, malloc hooks fuel h size = some r →
      mallocFound hooks h size (((chain (bucketOf size)).find? (fits h.mem size)).getD NULL) = some r := by
  obtain ⟨h8, h32⟩ := bucketOf_range size
  have hreturns := search_returns size (hs.shape.buckets.linked (bucketOf size) (by omega) h32).path
  constructor
  · obtain ⟨fuel, hrun⟩ := hreturns
    refine ⟨fuel, ?_⟩
    rw [malloc_eq hinit, hrun, Option.bind_some]
  · intro fuel r hcall
    rw [malloc_eq hinit] at hcall
    obtain ⟨t, hsearch, hcall⟩ := Option.bind_eq_some_iff.mp hcall
    rwa [Returns.unique ⟨fuel, hsearch⟩ hreturns] at hcall

theorem carveTag_ptr (h : Heap σ) (t size : U32) :
    (carveTag h t size).1.below = h.below ∧ (carveTag h t size).2 = t + sizeofTag := by
  simp only [carveTag]
  split_ifs <;> exact ⟨rfl, rfl⟩

theorem pagesFor_ne_zero (hsize : size.toNat + 32 < 2 ^ 32) : pagesFor size ≠ 0 := by
  intro heq
  have h16 := (pagesFor_spec hsize).1
  rw [heq] at h16
  exact absurd h16 (by decide)

theorem mallocFound_returns_iff : (∃ r, mallocFound hooks h size t = some r) ↔
    t ≠ NULL ∨ ∃ r, hooks.liballocAlloc h.below h.mem (pagesFor size) = some r := by
  rw [mallocFound, ← Option.isSome_iff_exists, ← Option.isSome_iff_exists]
  by_cases hnull : t = NULL
  · rw [if_pos hnull, allocateNewTag, Option.isSome_map, Option.isSome_map]
    exact (or_iff_right (not_not_intro hnull)).symm
  · rw [if_neg hnull]
    exact iff_of_true rfl (Or.inl hnull)

theorem malloc_returns_iff (hooks : Hooks σ) (size : U32) (hs : h.Good runs chain live none)
    (hinit : h.initialized = true) : (∃ fuel r, malloc hooks fuel h size = some r) ↔
      (∃ t ≠ NULL, Returns (searchBody h.mem size) (h.freePages (bucketOf size)) t) ∨
        ∃ r, hooks.liballocAlloc h.below h.mem (pagesFor size) = some r := by
  obtain ⟨h8, h32⟩ := bucketOf_range size
  have hsearch := search_returns size (hs.shape.buckets.linked (bucketOf size) (by omega) h32).path
  obtain ⟨⟨fuel, hcall⟩, hall⟩ := malloc_found hooks size hs hinit
  have hthe : (∃ t ≠ NULL, Returns (searchBody h.mem size) (h.freePages (bucketOf size)) t) ↔
      ((chain (bucketOf size)).find? (fits h.mem size)).getD NULL ≠ NULL := by
    constructor
    · rintro ⟨t, hne, hreturns⟩
      rwa [← hreturns.unique hsearch]
    · exact fun hne => ⟨_, hne, hsearch⟩
  rw [hthe, ← mallocFound_returns_iff]
  constructor
  · rintro ⟨fuel, r, hr⟩
    exact ⟨r, hall fuel r hr⟩
  · rintro ⟨r, hr⟩
    exact ⟨fuel, r, hcall.trans hr⟩

theorem add_sizeofTag_ne {n : Nat} (hfits : t.toNat + n < 2 ^ 32) (hn : 32 ≤ n) : t + sizeofTag ≠ NULL := by
  simp only [sizeofTag, NULL]
  bv_omega

theorem malloc_null (hl : Lawful hooks Owned) (hinit : h.initialized = true) (hs : h.Good runs chain live none)
    (ho : Owned h.below h.mem (runs.map PageRun.block)) (hsize : size.toNat + 32 < 2 ^ 32)
    (hcall : malloc hooks fuel h size = some (h', NULL)) :
    ∃ below mem, hooks.liballocAlloc h.below h.mem (pagesFor size) = some (NULL, below, mem) := by
  have hfound := (malloc_found hooks size hs hinit).2 fuel _ hcall
  rw [mallocFound] at hfound
  split_ifs at hfound with hnull
  · rw [allocateNewTag, Option.map_map, Option.map_eq_some_iff] at hfound
    obtain ⟨⟨q, below, mem⟩, halloc, hresult⟩ := hfound
    by_cases hq : q = NULL
    · exact ⟨below, mem, hq ▸ halloc⟩
    · simp only [Function.comp_apply, if_neg hq] at hresult
      have hptr := (congrArg Prod.snd hresult).symm.trans (carveTag_ptr _ q size).2
      have howned := ((hl.alloc ho (pagesFor_ne_zero hsize) halloc).2.resolve_left fun hn => hq hn.1).2
      have hfits := hl.fits howned _ List.mem_cons_self
      have h16 := (pagesFor_spec hsize).1
      exact absurd hptr.symm (add_sizeofTag_ne hfits (by simp only; omega))
  · have hptr := (congrArg Prod.snd (Option.some.inj hfound)).symm.trans (carveTag_ptr _ _ size).2
    cases hfind : (chain (bucketOf size)).find? (fits h.mem size) with
    | none => exact absurd (by rw [hfind]; rfl) hnull
    | some t =>
        obtain ⟨h8, h32⟩ := bucketOf_range size
        have ht := (hs.shape.buckets.chain_free (by omega) h32 (List.mem_of_find?_eq_some hfind)).1
        obtain ⟨-, hfits, hbig⟩ := hs.tag_fits ht
        rw [hfind, Option.getD_some] at hptr
        exact absurd hptr.symm (add_sizeofTag_ne hfits hbig)

end MetalNes.Liballoc
