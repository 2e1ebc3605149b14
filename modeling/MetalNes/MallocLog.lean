import Mathlib.Data.List.Perm.Basic
import Mathlib.Data.List.Nodup
import Mathlib.Data.Nat.Basic

namespace MetalNes.MallocLog

/-- What may be passed to free: a block, or something that malloc never returned. -/
inductive Pointer (σ : Type)
  | block (b : Nat)
  | static (s : σ)
  deriving DecidableEq

/-- The calls of malloc and free: blocks are numbered as they are handed out, and the
pointers passed to free are there, the last one first. -/
structure Log (σ : Type) where
  mallocs : Nat
  freed : List (Pointer σ)
  deriving DecidableEq

variable {σ : Type}

def Log.empty : Log σ := ⟨0, []⟩

def Log.malloc (l : Log σ) : Nat × Log σ := (l.mallocs, { l with mallocs := l.mallocs + 1 })

def Log.free (l : Log σ) (p : Pointer σ) : Log σ := { l with freed := p :: l.freed }

@[simp] theorem Log.malloc_freed (l : Log σ) : l.malloc.2.freed = l.freed := rfl

@[simp] theorem Log.free_freed (l : Log σ) (p : Pointer σ) : (l.free p).freed = p :: l.freed := rfl

variable [DecidableEq σ]

/-- Every block but those that are kept has been freed exactly once, and nothing else
was freed. -/
structure Log.FreesAll (l : Log σ) (kept : List Nat) : Prop where
  once : ∀ b < l.mallocs, b ∉ kept → l.freed.count (.block b) = 1
  blocks : ∀ p ∈ l.freed, ∃ b < l.mallocs, p = .block b

/-- So many blocks are in use, and all others have been freed once. -/
structure Owns (l : Log σ) (live : List Nat) : Prop where
  nodup : live.Nodup
  known : ∀ b ∈ live, b < l.mallocs
  held : ∀ b ∈ live, .block b ∉ l.freed
  once : ∀ b < l.mallocs, b ∉ live → l.freed.count (.block b) = 1
  blocks : ∀ p ∈ l.freed, ∃ b < l.mallocs, p = .block b

theorem owns_empty : Owns (Log.empty : Log σ) [] where
  nodup := List.nodup_nil
  known := fun _ h => absurd h List.not_mem_nil
  held := fun _ h => absurd h List.not_mem_nil
  once := fun _ h => absurd h (Nat.not_lt_zero _)
  blocks := fun _ h => absurd h List.not_mem_nil

namespace Owns

variable {l : Log σ} {live live' : List Nat} {b : Nat}

theorem freesAll (h : Owns l []) : l.FreesAll [] := ⟨h.once, h.blocks⟩

theorem perm (h : Owns l live) (hperm : live.Perm live') : Owns l live' where
  nodup := hperm.nodup h.nodup
  known := fun b hb => h.known b (hperm.mem_iff.mpr hb)
  held := fun b hb => h.held b (hperm.mem_iff.mpr hb)
  once := fun b hb hnot => h.once b hb fun hmem => hnot (hperm.mem_iff.mp hmem)
  blocks := h.blocks

theorem malloc (h : Owns l live) : Owns l.malloc.2 (l.malloc.1 :: live) where
  nodup := List.nodup_cons.mpr ⟨fun hmem => lt_irrefl _ (h.known _ hmem), h.nodup⟩
  known := by
    rw [List.forall_mem_cons]
    exact ⟨Nat.lt_succ_self _, fun b hb => Nat.lt_succ_of_lt (h.known b hb)⟩
  held := by
    rw [List.forall_mem_cons]
    refine ⟨fun hmem => ?_, h.held⟩
    obtain ⟨b, hb, heq⟩ := h.blocks _ hmem
    cases heq
    exact lt_irrefl _ hb
  once := by
    intro b hb hnot
    rw [List.mem_cons, not_or] at hnot
    exact h.once b (lt_of_le_of_ne (Nat.le_of_lt_succ hb) hnot.1) hnot.2
  blocks := fun p hp => by
    obtain ⟨b, hb, rfl⟩ := h.blocks p hp
    exact ⟨b, Nat.lt_succ_of_lt hb, rfl⟩

theorem free (h : Owns l (b :: live)) : Owns (l.free (.block b)) live := by
  obtain ⟨hb, hnodup⟩ := List.nodup_cons.mp h.nodup
  refine ⟨hnodup, fun c hc => h.known c (List.mem_cons_of_mem b hc), ?_, ?_, ?_⟩
  · intro c hc hmem
    rcases List.mem_cons.mp hmem with heq | hmem
    · cases heq
      exact hb hc
    · exact h.held c (List.mem_cons_of_mem b hc) hmem
  · intro c hc hnot
    rw [Log.free_freed, List.count_cons]
    by_cases hcb : b = c
    · have hzero := List.count_eq_zero_of_not_mem (h.held b List.mem_cons_self)
      rw [← hcb, hzero, if_pos BEq.rfl]
    · rw [if_neg (by simpa using hcb), h.once c hc (by simpa [Ne.symm hcb] using hnot)]
  · rw [Log.free_freed, List.forall_mem_cons]
    exact ⟨⟨b, h.known b List.mem_cons_self, rfl⟩, h.blocks⟩

end Owns

def Held (l : Log σ) (b : Nat) : Prop := b < l.mallocs ∧ .block b ∉ l.freed

omit [DecidableEq σ] in
theorem Held.malloc {l : Log σ} {b : Nat} (h : Held l b) : Held l.malloc.2 b :=
  ⟨Nat.lt_succ_of_lt h.1, h.2⟩

omit [DecidableEq σ] in
theorem Held.free {l : Log σ} {b : Nat} (h : Held l b) {p : Pointer σ} (hp : p ≠ .block b) : Held (l.free p) b := by
  refine ⟨h.1, fun hmem => ?_⟩
  rcases List.mem_cons.mp hmem with heq | hmem
  · exact hp heq.symm
  · exact h.2 hmem

theorem Held.not_freesAll {l : Log σ} {b : Nat} (h : Held l b) {kept : List Nat} (hb : b ∉ kept) :
    ¬ l.FreesAll kept := by
  intro hall
  have hzero := List.count_eq_zero_of_not_mem h.2
  have hone := hall.once b h.1 hb
  omega

end MetalNes.MallocLog
