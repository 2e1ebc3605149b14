import MetalNes.TagFields
import MetalNes.Tilings
import MetalNes.Relinks
import MetalNes.PageRuns

namespace MetalNes.Liballoc

open PageChunks (NULL)
open PageRuns (Block)
open Segments Tilings

/-- Pages from the hook, and the tags in them by address. -/
structure PageRun where
  block : Block
  tags : List U32

def PageRun.stop (r : PageRun) : Nat := r.block.addr.toNat + 4096 * r.block.pages.toNat

def allTags (runs : List PageRun) : List U32 := runs.flatMap PageRun.tags

def Fields.len (F : Fields) (t : U32) : Nat := (F t .realSize).toNat

def Fields.idx (F : Fields) (t : U32) : Int := (F t .index).toInt

/-- The tags of one run follow each other without gaps, and are linked in this order. -/
structure RunShape (F : Fields) (r : PageRun) : Prop where
  tiles : Tiles BitVec.toNat F.len r.block.addr.toNat r.tags r.stop
  links : Whole NULL (F · .splitRight) (F · .splitLeft) r.block.addr r.tags
  big : ∀ t ∈ r.tags, 32 ≤ F.len t
  magic : ∀ t ∈ r.tags, F t .magic = LIBALLOC_MAGIC
  fits : r.stop < 2 ^ 32
  enough : 16 ≤ r.block.pages.toNat

/-- The free tags of an index are linked from its entry on; a tag in use has no such links. -/
structure Buckets (F : Fields) (freePages : Int → U32) (tags : List U32) (chain : Int → List U32) : Prop where
  linked : ∀ i, 0 ≤ i → i < 32 → Whole NULL (F · .next) (F · .prev) (freePages i) (chain i)
  mem_iff : ∀ i, 0 ≤ i → i < 32 → ∀ t, t ∈ chain i ↔ t ∈ tags ∧ F.idx t = i
  idx_cases : ∀ t ∈ tags, F.idx t = -1 ∨ 0 ≤ F.idx t ∧ F.idx t < 32
  alone : ∀ t ∈ tags, F.idx t = -1 → F t .next = NULL ∧ F t .prev = NULL

structure Shape (F : Fields) (freePages : Int → U32) (runs : List PageRun) (chain : Int → List U32) : Prop where
  run_shape : ∀ r ∈ runs, RunShape F r
  disjoint : (runs.map PageRun.block).Pairwise fun b c => Disjoint b.extent c.extent
  buckets : Buckets F freePages (allTags runs) chain

theorem mem_allTags {runs : List PageRun} {t : U32} : t ∈ allTags runs ↔ ∃ r ∈ runs, t ∈ r.tags :=
  List.mem_flatMap

theorem allTags_middle (pre post : List PageRun) (r : PageRun) (t : U32) :
    t ∈ allTags (pre ++ r :: post) ↔ t ∈ r.tags ∨ t ∈ allTags (pre ++ post) := by
  simp only [mem_allTags, List.mem_append, List.mem_cons]
  constructor
  · rintro ⟨r', hr | rfl | hr, ht⟩
    · exact Or.inr ⟨r', Or.inl hr, ht⟩
    · exact Or.inl ht
    · exact Or.inr ⟨r', Or.inr hr, ht⟩
  · rintro (ht | ⟨r', hr | hr, ht⟩)
    · exact ⟨r, Or.inr (Or.inl rfl), ht⟩
    · exact ⟨r', Or.inl hr, ht⟩
    · exact ⟨r', Or.inr (Or.inr hr), ht⟩

theorem allTags_behind (pre post : List PageRun) (b : Block) (xs ys : List U32) (t n u : U32) :
    u ∈ allTags (pre ++ ⟨b, xs ++ t :: n :: ys⟩ :: post) ↔ u = n ∨ u ∈ allTags (pre ++ ⟨b, xs ++ t :: ys⟩ :: post) := by
  rw [allTags_middle, allTags_middle, mem_inserted_behind, or_assoc]

section Runs

variable {F F' : Fields} {r : PageRun} {b : Block} {xs ys : List U32} {t u n : U32}

theorem RunShape.congr (h : RunShape F r) (hlen : ∀ t ∈ r.tags, F'.len t = F.len t)
    (hright : ∀ t ∈ r.tags, F' t .splitRight = F t .splitRight)
    (hleft : ∀ t ∈ r.tags, F' t .splitLeft = F t .splitLeft) (hmagic : ∀ t ∈ r.tags, F' t .magic = F t .magic) :
    RunShape F' r where
  tiles := h.tiles.congr hlen
  links := h.links.congr hright hleft
  big t ht := (hlen t ht).symm ▸ h.big t ht
  magic t ht := (hmagic t ht).trans (h.magic t ht)
  fits := h.fits
  enough := h.enough

theorem RunShape.inside (h : RunShape F r) (ht : t ∈ r.tags) :
    r.block.addr.toNat ≤ t.toNat ∧ t.toNat + F.len t ≤ r.stop := h.tiles.inside ht

theorem RunShape.mem_extent (h : RunShape F r) (ht : t ∈ r.tags) : t.toNat ∈ r.block.extent := by
  have hin := h.inside ht
  have hbig := h.big t ht
  exact ⟨hin.1, show t.toNat < r.stop by omega⟩

theorem RunShape.apart (h : RunShape F r) (ht : t ∈ r.tags) (hu : u ∈ r.tags) (hne : t ≠ u) :
    t.toNat + F.len t ≤ u.toNat ∨ u.toNat + F.len u ≤ t.toNat :=
  h.tiles.apart ht hu hne

theorem RunShape.ne_null (h : RunShape F r) (ht : t ∈ r.tags) : t ≠ NULL := fun hnull =>
  h.links.stop_notMem (hnull ▸ ht)

/-- Two tags next to each other become one: the members of the left one say so. -/
theorem RunShape.merge (h : RunShape F ⟨b, xs ++ t :: u :: ys⟩) (hlen : F'.len t = F.len t + F.len u)
    (hlen' : ∀ a ∈ xs ++ ys, F'.len a = F.len a)
    (hright : F' t .splitRight = F u .splitRight) (hright' : ∀ a ∈ xs ++ ys, F' a .splitRight = F a .splitRight)
    (hleft : ∀ a ∈ xs ++ t :: ys, F' a .splitLeft = if a = F u .splitRight then t else F a .splitLeft)
    (hmagic : ∀ a ∈ xs ++ t :: ys, F' a .magic = F a .magic) : RunShape F' ⟨b, xs ++ t :: ys⟩ := by
  have hsub : ∀ a ∈ xs ++ t :: ys, a ∈ xs ++ t :: u :: ys := by
    exact fun a ha => mem_inserted_behind.mpr (Or.inr ha)
  constructor
  · exact h.tiles.merge (fun a ha => hlen' a (List.mem_append_left ys ha))
      (fun a ha => hlen' a (List.mem_append_right xs ha)) hlen
  · exact h.links.removeAfter hright hright' hleft
  · intro a ha
    rcases List.mem_append.mp ha with hxs | hys
    · exact hlen' a (List.mem_append_left ys hxs) ▸ h.big a (hsub a ha)
    · rcases List.mem_cons.mp hys with rfl | hys
      · have hbig := h.big a (hsub a ha)
        omega
      · exact hlen' a (List.mem_append_right xs hys) ▸ h.big a (hsub a ha)
  · exact fun a ha => (hmagic a ha).trans (h.magic a (hsub a ha))
  · exact h.fits
  · exact h.enough

theorem RunShape.split (h : RunShape F ⟨b, xs ++ t :: ys⟩) (hne : n ≠ NULL) (hn : n.toNat = t.toNat + F'.len t)
    (hlen : F'.len t + F'.len n = F.len t) (hbig : 32 ≤ F'.len t ∧ 32 ≤ F'.len n)
    (hlen' : ∀ a ∈ xs ++ ys, F'.len a = F.len a)
    (hnew : F' n .splitRight = F t .splitRight ∧ F' n .splitLeft = t) (hright : F' t .splitRight = n)
    (hright' : ∀ a ∈ xs ++ ys, F' a .splitRight = F a .splitRight)
    (hleft : ∀ a ∈ xs ++ t :: ys, F' a .splitLeft = if a = F t .splitRight then n else F a .splitLeft)
    (hmagic : ∀ a ∈ xs ++ t :: n :: ys, F' a .magic = LIBALLOC_MAGIC) : RunShape F' ⟨b, xs ++ t :: n :: ys⟩ where
  tiles := h.tiles.split (fun a ha => hlen' a (List.mem_append_left ys ha))
    (fun a ha => hlen' a (List.mem_append_right xs ha)) hn hlen
  links := h.links.insertAfter hne hnew hright hright' hleft
  big a ha := by
    simp only [List.mem_append, List.mem_cons] at ha
    rcases ha with hxs | rfl | rfl | hys
    · exact hlen' a (List.mem_append_left ys hxs) ▸ h.big a (List.mem_append_left _ hxs)
    · exact hbig.1
    · exact hbig.2
    · exact hlen' a (List.mem_append_right xs hys) ▸ h.big a (List.mem_append_right xs (List.mem_cons_of_mem t hys))
  magic := hmagic
  fits := h.fits
  enough := h.enough

theorem RunShape.fresh (hne : b.addr ≠ NULL) (hlen : F.len b.addr = 4096 * b.pages.toNat)
    (hpages : 16 ≤ b.pages.toNat) (hlinks : F b.addr .splitLeft = NULL ∧ F b.addr .splitRight = NULL)
    (hmagic : F b.addr .magic = LIBALLOC_MAGIC) (hfits : b.addr.toNat + 4096 * b.pages.toNat < 2 ^ 32) :
    RunShape F ⟨b, [b.addr]⟩ where
  tiles := ⟨rfl, by rw [hlen]; rfl⟩
  links := ⟨b.addr, rfl, hne, hlinks.1, hlinks.2, rfl⟩
  big t ht := by
    obtain rfl := List.mem_singleton.mp ht
    rw [hlen]
    omega
  magic t ht := by
    obtain rfl := List.mem_singleton.mp ht
    exact hmagic
  fits := hfits
  enough := hpages

end Runs

section Buckets

variable {F F' : Fields} {freePages : Int → U32} {tags tags' : List U32} {chain : Int → List U32} {t : U32} {i : Int}

/-- The free tags stay, and what else there is has no links. -/
theorem Buckets.retag (h : Buckets F freePages tags chain) (hfree : ∀ t ∈ tags, F.idx t ≠ -1 → t ∈ tags')
    (hsame : ∀ t ∈ tags, F.idx t ≠ -1 → F'.idx t = F.idx t ∧ F' t .next = F t .next ∧ F' t .prev = F t .prev)
    (hused : ∀ t ∈ tags', t ∉ tags ∨ F.idx t = -1 → F'.idx t = -1 ∧ F' t .next = NULL ∧ F' t .prev = NULL) :
    Buckets F' freePages tags' chain := by
  have hcases : ∀ t ∈ tags', (t ∉ tags ∨ F.idx t = -1) ∨ t ∈ tags ∧ F.idx t ≠ -1 := fun t _ => by tauto
  have hchain : ∀ i, 0 ≤ i → i < 32 → ∀ t ∈ chain i, t ∈ tags ∧ F.idx t ≠ -1 := by
    intro i h0 h32 t ht
    obtain ⟨hmem, hidx⟩ := (h.mem_iff i h0 h32 t).mp ht
    exact ⟨hmem, by omega⟩
  constructor
  · intro i h0 h32
    exact (h.linked i h0 h32).congr (fun t ht => (hsame t (hchain i h0 h32 t ht).1 (hchain i h0 h32 t ht).2).2.1)
      fun t ht => (hsame t (hchain i h0 h32 t ht).1 (hchain i h0 h32 t ht).2).2.2
  · intro i h0 h32 t
    rw [h.mem_iff i h0 h32 t]
    constructor
    · rintro ⟨hmem, hidx⟩
      have hne : F.idx t ≠ -1 := by omega
      exact ⟨hfree t hmem hne, (hsame t hmem hne).1.trans hidx⟩
    · rintro ⟨hmem, hidx⟩
      rcases hcases t hmem with hu | ⟨hold, hne⟩
      · have hneg := (hused t hmem hu).1
        omega
      · exact ⟨hold, (hsame t hold hne).1.symm.trans hidx⟩
  · intro t ht
    rcases hcases t ht with hu | ⟨hold, hne⟩
    · exact Or.inl (hused t ht hu).1
    · rw [(hsame t hold hne).1]
      exact h.idx_cases t hold
  · intro t ht hidx
    rcases hcases t ht with hu | ⟨hold, hne⟩
    · exact (hused t ht hu).2
    · exact absurd ((hsame t hold hne).1.symm.trans hidx) hne

theorem Buckets.chain_free (h : Buckets F freePages tags chain) (h0 : 0 ≤ i) (h32 : i < 32) (ht : t ∈ chain i) :
    t ∈ tags ∧ F.idx t = i := (h.mem_iff i h0 h32 t).mp ht

theorem Buckets.next_mem (h : Buckets F freePages tags chain) (ht : t ∈ tags) (hne : F t .next ≠ NULL) :
    F t .next ∈ tags ∧ F.idx (F t .next) = F.idx t := by
  rcases h.idx_cases t ht with hused | ⟨h0, h32⟩
  · exact absurd (h.alone t ht hused).1 hne
  · have hchain := (h.mem_iff _ h0 h32 t).mpr ⟨ht, rfl⟩
    exact h.chain_free h0 h32 (((h.linked _ h0 h32).next_mem hchain).resolve_right hne)

theorem Buckets.prev_mem (h : Buckets F freePages tags chain) (ht : t ∈ tags) (hne : F t .prev ≠ NULL) :
    F t .prev ∈ tags ∧ F.idx (F t .prev) = F.idx t := by
  rcases h.idx_cases t ht with hused | ⟨h0, h32⟩
  · exact absurd (h.alone t ht hused).2 hne
  · have hchain := (h.mem_iff _ h0 h32 t).mpr ⟨ht, rfl⟩
    exact h.chain_free h0 h32 (((h.linked _ h0 h32).prev_mem hchain).resolve_right hne)

theorem Buckets.first_mem (h : Buckets F freePages tags chain) (h0 : 0 ≤ i) (h32 : i < 32)
    (hne : freePages i ≠ NULL) : freePages i ∈ tags ∧ F.idx (freePages i) = i := by
  have hstart := (h.linked i h0 h32).start
  cases hc : chain i with
  | nil => exact absurd (by rw [hstart, hc]; rfl) hne
  | cons c rest =>
      rw [hc] at hstart
      exact h.chain_free h0 h32 (by rw [hc, hstart]; exact List.mem_cons_self)

end Buckets

section Shape

variable {F F' : Fields} {freePages : Int → U32} {runs pre post : List PageRun} {chain : Int → List U32}
variable {r r' : PageRun} {t u : U32}

theorem Shape.ne_null (h : Shape F freePages runs chain) : NULL ∉ allTags runs := by
  intro hnull
  obtain ⟨r, hr, ht⟩ := mem_allTags.mp hnull
  exact (h.run_shape r hr).ne_null ht rfl

theorem Shape.others_disjoint (h : Shape F freePages (pre ++ r :: post) chain) (hr' : r' ∈ pre ++ post) :
    Disjoint r.block.extent r'.block.extent := by
  have hpair := h.disjoint
  rw [List.map_append, List.map_cons, List.pairwise_middle fun hd => hd.symm] at hpair
  refine List.rel_of_pairwise_cons hpair ?_
  rw [← List.map_append]
  exact List.mem_map_of_mem hr'

theorem Shape.spaces_apart (h : Shape F freePages runs chain) (ht : t ∈ allTags runs) (hu : u ∈ allTags runs)
    (hne : t ≠ u) : t.toNat + F.len t ≤ u.toNat ∨ u.toNat + F.len u ≤ t.toNat := by
  obtain ⟨r, hr, htr⟩ := mem_allTags.mp ht
  obtain ⟨pre, post, rfl⟩ := List.append_of_mem hr
  rcases (allTags_middle pre post r u).mp hu with hur | hur
  · exact (h.run_shape r hr).apart htr hur hne
  · obtain ⟨r', hr', hur'⟩ := mem_allTags.mp hur
    have hshape := h.run_shape r' (mem_inserted.mpr (Or.inr hr'))
    have hd := h.others_disjoint hr'
    have hin := (h.run_shape r hr).inside htr
    have hin' := hshape.inside hur'
    by_contra hmeet
    rcases Nat.le_total t.toNat u.toNat with hle | hle
    · have hmem : u.toNat ∈ r.block.extent := ⟨by omega, show u.toNat < r.stop by omega⟩
      exact Set.disjoint_left.mp hd hmem (hshape.mem_extent hur')
    · have hmem : t.toNat ∈ r'.block.extent := ⟨by omega, show t.toNat < r'.stop by omega⟩
      exact Set.disjoint_left.mp hd ((h.run_shape r hr).mem_extent htr) hmem

theorem Shape.big (h : Shape F freePages runs chain) (ht : t ∈ allTags runs) : 32 ≤ F.len t := by
  obtain ⟨r, hr, htr⟩ := mem_allTags.mp ht
  exact (h.run_shape r hr).big t htr

theorem Shape.apart (h : Shape F freePages runs chain) : Apart (allTags runs) := by
  intro t ht u hu hne
  have hspaces := h.spaces_apart ht hu hne
  have hbig := h.big ht
  have hbig' := h.big hu
  omega

theorem Shape.other_run (h : Shape F freePages (pre ++ r :: post) chain) (ht : t ∈ r.tags) (hr' : r' ∈ pre ++ post) :
    t ∉ r'.tags := fun ht' =>
  Set.disjoint_left.mp (h.others_disjoint hr')
    ((h.run_shape r (List.mem_append_right pre List.mem_cons_self)).mem_extent ht)
    ((h.run_shape r' (mem_inserted.mpr (Or.inr hr'))).mem_extent ht')

/-- One run is changed, and nothing that the other runs depend on. -/
theorem Shape.replace {freePages' : Int → U32} {chain' : Int → List U32} {tags : List U32}
    (h : Shape F freePages (pre ++ r :: post) chain)
    (hother : ∀ r' ∈ pre ++ post, ∀ t ∈ r'.tags, F'.len t = F.len t ∧ F' t .splitRight = F t .splitRight ∧
      F' t .splitLeft = F t .splitLeft ∧ F' t .magic = F t .magic)
    (hnew : RunShape F' ⟨r.block, tags⟩)
    (hbuckets : Buckets F' freePages' (allTags (pre ++ ⟨r.block, tags⟩ :: post)) chain') :
    Shape F' freePages' (pre ++ ⟨r.block, tags⟩ :: post) chain' := by
  refine ⟨fun r' hr' => ?_, ?_, hbuckets⟩
  · rcases mem_inserted.mp hr' with rfl | hr'
    · exact hnew
    · have hsame := hother r' hr'
      exact (h.run_shape r' (mem_inserted.mpr (Or.inr hr'))).congr (fun t ht => (hsame t ht).1)
        (fun t ht => (hsame t ht).2.1) (fun t ht => (hsame t ht).2.2.1) fun t ht => (hsame t ht).2.2.2
  · simpa using h.disjoint

end Shape

end MetalNes.Liballoc
