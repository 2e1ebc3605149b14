import MetalNes.PageRuns

namespace MetalNes.PageCounters

open PageChunks PageRuns

def outstanding (held : List Block) : Nat := (held.map fun b => b.pages.toNat).sum

def outstandingBytes (held : List Block) : U32 := BitVec.ofNat 32 (4096 * outstanding held)

/-- What the counters have to say of the memory, measured from their values behind
init_pmm. -/
structure Accounts (boot : Pmm) (c : Config) : Prop where
  used : c.heap.memUsed = boot.memUsed + outstandingBytes c.held
  free : c.heap.memFree = boot.memFree - outstandingBytes c.held
  total : c.heap.memUsed + c.heap.memFree = SYS_MEM * 1024 * 1024

theorem outstandingBytes_cons (b : Block) (held : List Block) :
    outstandingBytes (b :: held) = b.pages * 4096 + outstandingBytes held := by
  have hpage : (4096 : U32).toNat = 4096 := rfl
  apply BitVec.eq_of_toNat_eq
  simp only [outstandingBytes, outstanding, List.map_cons, List.sum_cons, BitVec.toNat_add, BitVec.toNat_mul,
    BitVec.toNat_ofNat, hpage]
  omega

theorem outstandingBytes_middle (pre post : List Block) (b : Block) :
    outstandingBytes (pre ++ b :: post) = outstandingBytes (pre ++ post) + b.pages * 4096 := by
  rw [add_comm, ← outstandingBytes_cons]
  simp only [outstandingBytes, outstanding, List.map_append, List.map_cons, List.sum_append, List.sum_cons]
  rw [add_left_comm]

theorem takeChunk_counters (s : Pmm) (n p : U32) :
    (takeChunk s n p).memUsed = s.memUsed + n * 4096 ∧ (takeChunk s n p).memFree = s.memFree := by
  unfold takeChunk
  split
  · split <;> exact ⟨rfl, rfl⟩
  · split <;> exact ⟨rfl, rfl⟩

theorem splitChunk_counters (s : Pmm) (n p : U32) :
    (splitChunk s n p).memUsed = s.memUsed + n * 4096 ∧ (splitChunk s n p).memFree = s.memFree := by
  unfold splitChunk
  simp only
  split <;> exact ⟨rfl, rfl⟩

theorem allocPage_counters {s s' : Pmm} {n p : U32} {fuel : Nat} (h : allocPage fuel s n = some (s', p)) :
    p = NULL ∧ s' = s ∨ p ≠ NULL ∧ s'.memUsed = s.memUsed + n * 4096 ∧ s'.memFree = s.memFree := by
  by_cases hr : s.rootMemNode = NULL
  · rw [allocPage, if_neg (not_not_intro hr)] at h
    obtain ⟨rfl, rfl⟩ := Prod.mk.inj (Option.some.inj h)
    exact Or.inl ⟨rfl, rfl⟩
  · obtain ⟨rfl, ⟨-, rfl⟩ | ⟨-, rfl⟩⟩ := allocPage_single hr h
    · exact Or.inr ⟨hr, takeChunk_counters s n _⟩
    · exact Or.inr ⟨hr, splitChunk_counters s n _⟩

theorem freePage_counters {s s' : Pmm} {a n : U32} {fuel : Nat} (ha : a ≠ NULL) (hn : n ≠ 0)
    (h : freePage fuel s a n = some s') : s'.memUsed = s.memUsed - n * 4096 ∧ s'.memFree = s.memFree := by
  by_cases hr : s.rootMemNode = NULL
  · obtain rfl := freePage_empty hr ha hn h
    exact ⟨rfl, rfl⟩
  · obtain rfl := freePage_below hr ha hn h
    exact ⟨rfl, rfl⟩

section Runs

variable {k : KernelImage} {history : List Transition} {c c' : Config} {call : Call}

/-- A completed call moves one counter by the pages that change hands, and leaves the
other one alone. -/
theorem step_counters (hs : Sound k c) (h : Step c call c') :
    c'.heap.memUsed + outstandingBytes c.held = c.heap.memUsed + outstandingBytes c'.held ∧
      c'.heap.memFree = c.heap.memFree := by
  cases h with
  | @alloc _ n p s fuel hn h =>
      rcases allocPage_counters h with ⟨rfl, rfl⟩ | ⟨hp, hused, hfree⟩
      · exact ⟨rfl, rfl⟩
      · refine ⟨?_, hfree⟩
        simp only [if_neg hp, hused, outstandingBytes_cons, add_assoc]
  | @free heap s pre post b fuel h =>
      have hmem : b ∈ pre ++ b :: post := List.mem_append_right pre List.mem_cons_self
      obtain ⟨hused, hfree⟩ := freePage_counters (hs.block_addr_ne_null hmem) (hs.pages_pos b hmem) h
      refine ⟨?_, hfree⟩
      simp only [hused, outstandingBytes_middle]
      rw [add_left_comm, add_comm (outstandingBytes _)]
      exact congrArg (· + outstandingBytes (pre ++ post)) (BitVec.sub_add_cancel _ _)
  | write mem h => exact ⟨rfl, rfl⟩

/-- The used counter follows the outstanding pages in every run. The free counter stays
where init_pmm has put it. -/
theorem run_counters (hr : Run k history c) (mem : Memory) :
    c.heap.memUsed = (initPmm k mem).memUsed + outstandingBytes c.held ∧
      c.heap.memFree = (initPmm k mem).memFree := by
  induction hr with
  | init mem' => exact ⟨(BitVec.add_zero _).symm, rfl⟩
  | step hr hs ih =>
      obtain ⟨hused, hfree⟩ := step_counters hr.sound hs
      obtain ⟨ihused, ihfree⟩ := ih
      refine ⟨?_, hfree.trans ihfree⟩
      rw [ihused, add_right_comm] at hused
      exact add_right_cancel hused

/-- init_pmm subtracts bytes from a number of megabytes. -/
theorem initPmm_total (k : KernelImage) (mem : Memory) :
    (initPmm k mem).memUsed + (initPmm k mem).memFree = SYS_MEM := BitVec.sub_add_cancel _ _

/-- In no state of any run do the counters account for the memory: their sum is off by
more than any number of pages. -/
theorem run_never_accounts (hr : Run k history c) (mem : Memory) : ¬ Accounts (initPmm k mem) c := by
  intro h
  obtain ⟨hused, hfree⟩ := run_counters hr mem
  have hsum : SYS_MEM + outstandingBytes c.held = SYS_MEM * 1024 * 1024 := by
    rw [← h.total, hused, hfree, ← initPmm_total k mem, add_right_comm]
  have hnat := congrArg BitVec.toNat hsum
  have hsys : SYS_MEM.toNat = 128 := rfl
  have hbytes : (SYS_MEM * 1024 * 1024).toNat = 134217728 := by decide
  rw [BitVec.toNat_add, outstandingBytes, BitVec.toNat_ofNat, hsys, hbytes] at hnat
  omega

theorem taken_not_accounts : ¬ Accounts (initPmm smallestImage fun _ => 0) ⟨takenHeap, [⟨0x20000, 1⟩]⟩ :=
  run_never_accounts run_taken _

end Runs

/-- Right behind init_pmm the counters add up to 128 bytes. -/
theorem boot_not_accounts : Run smallestImage [] ⟨bootHeap, []⟩ ∧ ¬ Accounts bootHeap ⟨bootHeap, []⟩ := by
  refine ⟨.init _, fun h => ?_⟩
  have htotal := h.total
  revert htotal
  decide

end MetalNes.PageCounters
