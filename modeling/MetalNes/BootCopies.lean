import MetalNes.BootRuns

namespace MetalNes.Liballoc

open ByteWords Loop PageChunks
open PageRuns (Block smallestImage)

variable {k : KernelImage} {mem : Bytes} {steps : List (Call × Config Pages)} {c : Config Pages}
variable {h h' : Heap Pages} {live : List Object} {p size nobj : U32} {pagesFuel fuel : Nat}

/-- calloc clears the object that it gives out; without memory for one it clears what lies
at address zero. -/
theorem boot_calloc (hrun : BootRun k mem pagesFuel steps) (hc : c ∈ steps.map Prod.snd)
    (hsize : (nobj * size).toNat + 32 < 2 ^ 32)
    (hcall : calloc (pageHooks pagesFuel) fuel c.heap nobj size = some (h', p)) :
    (p ≠ NULL → Ready (PagesOwned k) ⟨h', ⟨p, nobj * size⟩ :: c.live⟩ ∧ Kept c.live c.heap.mem h'.mem ∧
      ∀ a ∈ Object.extent ⟨p, nobj * size⟩, h'.mem a = 0) ∧
    (p = NULL → ∀ a < (nobj * size).toNat, h'.mem a = 0) := by
  have hready := hrun.ready hc
  constructor
  · intro hp
    rw [← calloc_initLists] at hcall
    obtain ⟨hinit, hkept, hinv, hclear⟩ :=
      calloc_spec (pageHooks_lawful k pagesFuel) (initLists_initialized c.heap) hready.inv hsize hcall hp
    rw [(initLists_mem c.heap).1] at hkept
    exact ⟨.of_inv hinit hinv, hkept, hclear⟩
  · rintro rfl a ha
    obtain ⟨⟨h₁, p⟩, -, hreturn⟩ := Option.map_eq_some_iff.mp hcall
    obtain ⟨rfl, rfl⟩ := Prod.mk.inj hreturn
    have hzero : (NULL : U32).toNat = 0 := rfl
    have happly := memset_apply (s := NULL) h₁.mem 0 (show NULL.toNat + (nobj * size).toNat ≤ 2 ^ 32 by omega) a
    exact happly.trans (if_pos ⟨Nat.zero_le a, by omega⟩)

theorem boot_calloc_first : ∃ heap heap' h', BootRun smallestImage (fun _ => 0) 1 (firstSteps heap heap') ∧
    calloc (pageHooks 1) 1 heap 5 20 = some (h', 0x30020) ∧ ∀ a ∈ Object.extent ⟨0x30020, 5 * 20⟩, h'.mem a = 0 := by
  obtain ⟨heap, heap', hvalues, hrun⟩ := bootRun_first
  obtain ⟨⟨h', p⟩, hcall, rfl⟩ := Option.map_eq_some_iff.mp hvalues.calloc_eq
  obtain ⟨-, -, hclear⟩ := (boot_calloc hrun List.mem_cons_self (by decide) hcall).1 (by decide)
  exact ⟨heap, heap', h', hrun, hcall, hclear⟩

end MetalNes.Liballoc
