import Mathlib.Data.BitVec
import Mathlib.Logic.Function.Basic

namespace MetalNes.RingStack

variable {w : Nat} {α : Type}

/-- The contents of a stack that grows downwards through a ring of cells. The
pointer names the free cell below the top, and wraps. -/
def Holds (cells : BitVec w → α) : BitVec w → List α → Prop
  | _, [] => True
  | top, x :: xs => cells (top + 1) = x ∧ Holds cells (top + 1) xs

def depth (xs : List α) : BitVec w := BitVec.ofNat w xs.length

theorem depth_cons (top : BitVec w) (x : α) (xs : List α) :
    top + depth (x :: xs) = top + 1 + depth xs := by
  rw [depth, depth, List.length_cons, BitVec.ofNat_add, add_assoc, add_comm (BitVec.ofNat w _)]
  rfl

variable {cells : BitVec w → α} {top : BitVec w}

theorem Holds.update {xs : List α} (h : Holds cells top xs) {q : BitVec w} (x : α)
    (hq : ∀ i, i < xs.length → top + 1 + BitVec.ofNat w i ≠ q) :
    Holds (Function.update cells q x) top xs := by
  induction xs generalizing top with
  | nil => trivial
  | cons y ys ih =>
      obtain ⟨hy, hys⟩ := h
      have hne : top + 1 ≠ q := by simpa using hq 0 (by simp)
      refine ⟨by rw [Function.update_of_ne hne]; exact hy, ih hys fun i hi => ?_⟩
      have hnext := hq (i + 1) (by simpa using hi)
      rwa [BitVec.ofNat_add, add_comm (BitVec.ofNat w i), ← add_assoc] at hnext

/-- Fewer steps than the ring has cells do not lead back to the free cell. -/
theorem held_ne_free (top : BitVec w) {i : Nat} (h : i + 1 < 2 ^ w) :
    top + 1 + BitVec.ofNat w i ≠ top := by
  intro he
  have hzero : BitVec.ofNat w (i + 1) = 0 := by
    rw [BitVec.ofNat_add, add_comm]
    exact add_left_cancel (a := top) (by rw [← add_assoc, add_zero]; exact he)
  have hnat := congrArg BitVec.toNat hzero
  simp only [BitVec.toNat_ofNat, BitVec.ofNat_eq_ofNat, Nat.zero_mod] at hnat
  rw [Nat.mod_eq_of_lt h] at hnat
  omega

theorem Holds.push {xs : List α} (h : Holds cells top xs) (hlen : xs.length < 2 ^ w) (x : α) :
    Holds (Function.update cells top x) (top - 1) (x :: xs) := by
  have hback : top - 1 + 1 = top := sub_add_cancel top 1
  refine ⟨by rw [hback, Function.update_self], ?_⟩
  rw [hback]
  exact h.update x fun i hi => held_ne_free top (by omega)

theorem Holds.drop {xs ys : List α} (h : Holds cells top (xs ++ ys)) :
    Holds cells (top + depth xs) ys := by
  induction xs generalizing top with
  | nil => simpa [depth] using h
  | cons x xs ih =>
      rw [depth_cons]
      exact ih h.2

end MetalNes.RingStack
