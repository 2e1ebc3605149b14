import MetalNes.HeapUse
import MetalNes.Runs

namespace MetalNes.Liballoc

open ByteWords Loop Runs
open PageChunks (NULL)
open PageRuns (Block)

structure Config (σ : Type) where
  heap : Heap σ
  live : List Object

inductive Call
  | malloc (size : U32)
  | calloc (nobj size : U32)
  | realloc (p size : U32)
  | free (p : U32)
  | writes (bytes : Set Nat)
  | others

section Steps

variable {σ : Type} (hooks : Hooks σ) (Owned : σ → Bytes → List Block → Prop)

/-- Calls that return, for sizes that leave room for a tag in 32 bits. Of calloc, and of
realloc with an object, they are those that got memory: without it these calls write from
address 0 on. Between the calls the objects may be written, and anything may be done with
the pages and the page allocator that keeps the blocks of the heap. -/
inductive Step : Config σ → Call → Config σ → Prop
  | malloc {c : Config σ} {heap : Heap σ} {size p : U32} (fuel : Nat) (hsize : size.toNat + 32 < 2 ^ 32)
      (h : malloc hooks fuel c.heap size = some (heap, p)) :
      Step c (.malloc size) ⟨heap, if p = NULL then c.live else ⟨p, size⟩ :: c.live⟩
  | calloc {c : Config σ} {heap : Heap σ} {nobj size p : U32} (fuel : Nat)
      (hsize : (nobj * size).toNat + 32 < 2 ^ 32) (h : calloc hooks fuel c.heap nobj size = some (heap, p))
      (hp : p ≠ NULL) : Step c (.calloc nobj size) ⟨heap, ⟨p, nobj * size⟩ :: c.live⟩
  | realloc {heap heap' : Heap σ} {before after : List Object} {o : Object} {size p : U32} (fuel : Nat)
      (hpos : size ≠ 0) (hsize : size.toNat + 32 < 2 ^ 32)
      (h : realloc hooks fuel heap o.ptr size = some (heap', p)) (hp : p ≠ NULL) :
      Step ⟨heap, before ++ o :: after⟩ (.realloc o.ptr size) ⟨heap', ⟨p, size⟩ :: (before ++ after)⟩
  | reallocNone {c : Config σ} {heap : Heap σ} {size p : U32} (fuel : Nat) (hpos : size ≠ 0)
      (hsize : size.toNat + 32 < 2 ^ 32) (h : realloc hooks fuel c.heap NULL size = some (heap, p)) :
      Step c (.realloc NULL size) ⟨heap, if p = NULL then c.live else ⟨p, size⟩ :: c.live⟩
  | reallocZero {heap heap' : Heap σ} {before after : List Object} {o : Object} {p : U32} (fuel : Nat)
      (h : realloc hooks fuel heap o.ptr 0 = some (heap', p)) :
      Step ⟨heap, before ++ o :: after⟩ (.realloc o.ptr 0) ⟨heap', before ++ after⟩
  | free {heap heap' : Heap σ} {before after : List Object} {o : Object} (fuel : Nat)
      (h : free hooks fuel heap o.ptr = some heap') :
      Step ⟨heap, before ++ o :: after⟩ (.free o.ptr) ⟨heap', before ++ after⟩
  | freeOther {c : Config σ} {heap : Heap σ} {p : U32} (fuel : Nat)
      (hp : p = NULL ∨ get c.heap.mem (p - sizeofTag) .magic ≠ LIBALLOC_MAGIC)
      (h : free hooks fuel c.heap p = some heap) : Step c (.free p) ⟨heap, c.live⟩
  | writes {c : Config σ} {bytes : Set Nat} (mem : Bytes) (hin : ∀ a ∈ bytes, ∃ o ∈ c.live, a ∈ o.extent)
      (hmem : ∀ a, a ∉ bytes → mem a = c.heap.mem a) : Step c (.writes bytes) ⟨{ c.heap with mem }, c.live⟩
  | others {c : Config σ} {runs : List PageRun} {chain : Int → List U32} (below : σ) (mem : Bytes)
      (hgood : (initLists c.heap).Good runs chain c.live none) (howned : Owned below mem (runs.map PageRun.block))
      (hkeep : ∀ b ∈ runs.map PageRun.block, ∀ a ∈ b.extent, mem a = c.heap.mem a) :
      Step c .others ⟨{ c.heap with below, mem }, c.live⟩

/-- A heap that malloc has not set up yet has no objects. -/
structure Ready (c : Config σ) : Prop where
  inv : Inv Owned (initLists c.heap) c.live
  unused : c.heap.initialized = false → c.live = []

end Steps

section Start

variable {σ : Type} {hooks : Hooks σ} {Owned : σ → Bytes → List Block → Prop} {h : Heap σ} {fuel : Nat}

theorem initLists_initialized (h : Heap σ) : (initLists h).initialized = true := by
  rw [initLists]
  split_ifs with hinit
  · exact hinit
  · rfl

theorem initLists_mem (h : Heap σ) : (initLists h).mem = h.mem ∧ (initLists h).below = h.below := by
  rw [initLists]
  split_ifs <;> exact ⟨rfl, rfl⟩

theorem malloc_initLists (size : U32) : malloc hooks fuel (initLists h) size = malloc hooks fuel h size := by
  rw [malloc, malloc, initLists_eq (initLists_initialized h)]

theorem calloc_initLists (nobj size : U32) :
    calloc hooks fuel (initLists h) nobj size = calloc hooks fuel h nobj size := by
  rw [calloc, calloc, malloc_initLists]

theorem good_start (hinit : h.initialized = false) : (initLists h).Good [] (fun _ => []) [] none := by
  have hnull : ∀ i, 0 ≤ i → i < 32 → (initLists h).freePages i = NULL := fun i h0 h32 => by
    simp [initLists, hinit, MAXEXP, h0, h32]
  have hzero : ∀ i, 0 ≤ i → i < 32 → (initLists h).completePages i = 0 := fun i h0 h32 => by
    simp [initLists, hinit, MAXEXP, h0, h32]
  refine ⟨⟨List.forall_mem_nil _, .nil, ?_⟩, List.forall_mem_nil _, List.forall_mem_nil _, ?_, ?_,
    List.forall_mem_nil _, ?_, .nil, not_held⟩
  · exact ⟨fun i h0 h32 => Segments.whole_nil_iff.mpr (hnull i h0 h32), fun i _ _ t => by simp [allTags],
      List.forall_mem_nil _, List.forall_mem_nil _⟩
  · exact fun i h0 h32 => hzero i h0 h32
  · intro i h0 h32
    rw [hzero i h0 h32]
    decide
  · intro o
    simp [allTags]

theorem ready_start (hinit : h.initialized = false) (ho : Owned h.below h.mem []) : Ready Owned ⟨h, []⟩ where
  inv := ⟨[], fun _ => [], good_start hinit, by rwa [(initLists_mem h).1, (initLists_mem h).2]⟩
  unused _ := rfl

end Start

section Runs

variable {σ : Type} {hooks : Hooks σ} {Owned : σ → Bytes → List Block → Prop} {c c' : Config σ} {e : Call}
variable {h : Heap σ} {live : List Object}

theorem initLists_replace (h : Heap σ) (below : σ) (mem : Bytes) :
    initLists { h with below, mem } = { initLists h with below, mem } := by
  unfold initLists
  split_ifs <;> rfl

theorem Ready.of_inv (hinit : h.initialized = true) (hinv : Inv Owned h live) : Ready Owned ⟨h, live⟩ where
  inv := by rwa [initLists_eq hinit]
  unused hnot := absurd hnot (by rw [hinit]; decide)

theorem Ready.of_mem (hc : Ready Owned c) {o : Object} (ho : o ∈ c.live) :
    c.heap.initialized = true ∧ Inv Owned c.heap c.live := by
  have hinit : c.heap.initialized = true := by
    by_contra hnot
    rw [hc.unused (by simpa using hnot)] at ho
    cases ho
  refine ⟨hinit, ?_⟩
  have hinv := hc.inv
  rwa [initLists_eq hinit] at hinv

/-- The bytes of an object that stays out are kept, but for the writes to it. -/
def Stable (c : Config σ) (e : Call) (c' : Config σ) : Prop := ∀ o ∈ c.live, o ∈ c'.live → ∀ a ∈ o.extent,
  (∀ bytes, e = .writes bytes → a ∉ bytes) → c'.heap.mem a = c.heap.mem a

theorem Stable.of_kept (h : Kept c.live c.heap.mem c'.heap.mem) : Stable c e c' := fun o ho _ a ha _ => h o ho a ha

theorem malloc_step (hl : Lawful hooks Owned) (hc : Ready Owned c) {heap : Heap σ} {size p : U32} {fuel : Nat}
    (hsize : size.toNat + 32 < 2 ^ 32) (hcall : malloc hooks fuel c.heap size = some (heap, p)) :
    Ready Owned ⟨heap, if p = NULL then c.live else ⟨p, size⟩ :: c.live⟩ ∧ Kept c.live c.heap.mem heap.mem := by
  rw [← malloc_initLists] at hcall
  obtain ⟨hinit, hkept, hcases⟩ := malloc_spec hl (initLists_initialized c.heap) hc.inv hsize hcall
  rw [(initLists_mem c.heap).1] at hkept
  refine ⟨.of_inv hinit ?_, hkept⟩
  rcases hcases with ⟨hnull, hinv⟩ | ⟨hne, hinv⟩
  · rwa [if_pos hnull]
  · rwa [if_neg hne]

theorem Stable.of_free {before after : List Object} {heap : Heap σ}
    (hkept : Kept (before ++ after) c.heap.mem heap.mem) : Stable c e ⟨heap, before ++ after⟩ :=
  fun q _ hstay a ha _ => hkept q hstay a ha

theorem Step.ready (hl : Lawful hooks Owned) (hc : Ready Owned c) (hstep : Step hooks Owned c e c') :
    Ready Owned c' ∧ Stable c e c' := by
  cases hstep with
  | malloc fuel hsize hcall =>
      obtain ⟨hready, hkept⟩ := malloc_step hl hc hsize hcall
      exact ⟨hready, .of_kept hkept⟩
  | calloc fuel hsize hcall hp =>
      rw [← calloc_initLists] at hcall
      obtain ⟨hinit, hkept, hinv, -⟩ := calloc_spec hl (initLists_initialized c.heap) hc.inv hsize hcall hp
      rw [(initLists_mem c.heap).1] at hkept
      exact ⟨.of_inv hinit hinv, .of_kept hkept⟩
  | @realloc heap heap' before after o size p fuel hpos hsize hcall hp =>
      obtain ⟨hinit, hinv⟩ := hc.of_mem (List.mem_append_right before List.mem_cons_self)
      obtain ⟨hinit', hkept, hinv', hcopied⟩ := realloc_spec hl hinit hinv hpos hsize hcall hp
      refine ⟨.of_inv hinit' hinv', fun q hq hstay a ha _ => ?_⟩
      rcases List.mem_cons.mp hstay with rfl | hstay
      · by_cases hsame : ⟨p, size⟩ = o
        · subst hsame
          obtain ⟨hlo, hhi⟩ := ha
          have hcopy := hcopied (a - p.toNat) (by simp only at *; omega)
          simp only at hcopy hlo
          rwa [Nat.add_sub_of_le hlo] at hcopy
        · have hothers : (⟨p, size⟩ : Object) ∈ before ++ after := (Segments.mem_inserted.mp hq).resolve_left hsame
          exact hkept _ hothers a ha
      · exact hkept q hstay a ha
  | reallocNone fuel hpos hsize hcall =>
      rw [Liballoc.realloc, if_neg hpos, if_pos rfl] at hcall
      obtain ⟨hready, hkept⟩ := malloc_step hl hc hsize hcall
      exact ⟨hready, .of_kept hkept⟩
  | @reallocZero heap heap' before after o p fuel hcall =>
      rw [Liballoc.realloc, if_pos rfl, Option.map_eq_some_iff] at hcall
      obtain ⟨h₁, hfree, hreturn⟩ := hcall
      obtain ⟨rfl, -⟩ := Prod.mk.inj hreturn
      obtain ⟨hinit, hinv⟩ := hc.of_mem (List.mem_append_right before List.mem_cons_self)
      obtain ⟨hinit', hkept, hinv'⟩ := free_spec hl hinv hfree
      exact ⟨.of_inv (hinit'.trans hinit) hinv', Stable.of_free hkept⟩
  | @free heap heap' before after o fuel hfree =>
      obtain ⟨hinit, hinv⟩ := hc.of_mem (List.mem_append_right before List.mem_cons_self)
      obtain ⟨hinit', hkept, hinv'⟩ := free_spec hl hinv hfree
      exact ⟨.of_inv (hinit'.trans hinit) hinv', Stable.of_free hkept⟩
  | @freeOther _ heap p fuel hp hcall =>
      have hsame : heap = c.heap := by
        rw [Liballoc.free] at hcall
        by_cases hnull : p = NULL
        · rw [if_pos hnull] at hcall
          exact (Option.some.inj hcall).symm
        · rw [if_neg hnull, if_pos (hp.resolve_left hnull)] at hcall
          exact (Option.some.inj hcall).symm
      rw [hsame]
      exact ⟨hc, .of_kept fun _ _ _ _ => rfl⟩
  | writes mem hin hmem =>
      refine ⟨⟨?_, hc.unused⟩, fun o ho _ a _ hquiet => hmem a (hquiet _ rfl)⟩
      have hinv : Inv Owned { initLists c.heap with mem } c.live := hc.inv.write hl fun a ha => by
        rw [(initLists_mem c.heap).1]
        exact hmem a fun hbytes => (hin a hbytes).elim fun o ho => ha o ho.1 ho.2
      have hsame : initLists { c.heap with mem } = { initLists c.heap with mem } := by
        unfold initLists
        split_ifs <;> rfl
      rwa [← hsame] at hinv
  | @others _ runs chain below mem hgood howned hkeep =>
      rw [Heap.Good, (initLists_mem c.heap).1] at hgood
      obtain ⟨hgood', hkept⟩ := Sound.of_pages hgood hkeep
      refine ⟨⟨?_, hc.unused⟩, .of_kept hkept⟩
      rw [initLists_replace]
      exact ⟨runs, chain, hgood', howned⟩

def Quiet (a : Nat) (_ : Config σ) (e : Call) : Prop := ∀ bytes, e = .writes bytes → a ∉ bytes

theorem trace_ready (hl : Lawful hooks Owned) (hc : Ready Owned c) {steps : List (Call × Config σ)}
    (hrun : Trace (Step hooks Owned) c steps) : ∀ x ∈ steps, Ready Owned x.2 :=
  hrun.invariant (fun _ _ _ hs hstep => (hstep.ready hl hs).1) hc

theorem trace_stable (hl : Lawful hooks Owned) (hc : Ready Owned c) {steps : List (Call × Config σ)}
    (hrun : Trace (Step hooks Owned) c steps) {o : Object} (ho : o ∈ c.live) (hstay : ∀ x ∈ steps, o ∈ x.2.live)
    {a : Nat} (ha : a ∈ o.extent) (hquiet : Meets (Quiet a) c steps) :
    ∀ x ∈ steps, x.2.heap.mem a = c.heap.mem a := by
  have same : ∀ s e t, Ready Owned s → o ∈ s.live → Step hooks Owned s e t → Quiet a s e → o ∈ t.live →
      t.heap.mem a = s.heap.mem a :=
    fun s e t hs hin hstep hquiet hout => (hstep.ready hl hs).2 o hin hout a ha hquiet
  exact @Trace.constant _ _ _ (Quiet a) (Ready Owned) (fun c => o ∈ c.live) _ (fun c => c.heap.mem a) _ _ hrun
    (fun _ _ _ hs hstep => (hstep.ready hl hs).1) hc same hquiet ho hstay

end Runs

end MetalNes.Liballoc
