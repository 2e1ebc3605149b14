import Mathlib.Data.BitVec
import Mathlib.Logic.Function.Basic
import Mathlib.Tactic.Common

namespace MetalNes.ByteWords

/-- Bytes by address. A word is four of them, the lowest one first. -/
abbrev Bytes := Nat → BitVec 8

def byteOf (v : BitVec 32) (i : Nat) : BitVec 8 := v.extractLsb' (8 * i) 8

def load (m : Bytes) (a : Nat) : BitVec 32 := m (a + 3) ++ m (a + 2) ++ m (a + 1) ++ m a

def store (m : Bytes) (a : Nat) (v : BitVec 32) : Bytes := fun x =>
  if a ≤ x ∧ x < a + 4 then byteOf v (x - a) else m x

theorem byteOf_append (v : BitVec 32) : byteOf v 3 ++ byteOf v 2 ++ byteOf v 1 ++ byteOf v 0 = v := by
  ext i hi
  simp only [byteOf, BitVec.getElem_append, BitVec.getElem_extractLsb']
  grind

theorem byteOf_load (m : Bytes) (a i : Nat) (hi : i < 4) : byteOf (load m a) i = m (a + i) := by
  ext j hj
  have hcases : i = 0 ∨ i = 1 ∨ i = 2 ∨ i = 3 := by omega
  simp only [byteOf, load, BitVec.getElem_extractLsb', BitVec.getLsbD_append]
  rcases hcases with rfl | rfl | rfl | rfl <;> grind

section Access

variable {m m' : Bytes} {a b x : Nat}

@[simp] theorem load_store (m : Bytes) (a : Nat) (v : BitVec 32) : load (store m a v) a = v := by
  simp [load, store, byteOf_append]

theorem store_outside (h : x < a ∨ a + 4 ≤ x) (v : BitVec 32) : store m a v x = m x :=
  if_neg (by omega)

theorem store_inside (h : a ≤ x) (h' : x < a + 4) (v : BitVec 32) : store m a v x = byteOf v (x - a) :=
  if_pos ⟨h, h'⟩

theorem load_congr (h : ∀ i < 4, m' (a + i) = m (a + i)) : load m' a = load m a := by
  have h0 := h 0 (by decide)
  have h1 := h 1 (by decide)
  have h2 := h 2 (by decide)
  have h3 := h 3 (by decide)
  rw [Nat.add_zero] at h0
  rw [load, load, h0, h1, h2, h3]

theorem load_store_apart (h : a + 4 ≤ b ∨ b + 4 ≤ a) (v : BitVec 32) : load (store m a v) b = load m b :=
  load_congr fun _ hi => store_outside (by omega) v

theorem store_load_inside (h : a ≤ x) (h' : x < a + 4) : store m a (load m b) x = m (b + (x - a)) := by
  rw [store_inside h h', byteOf_load m b _ (by omega)]

end Access

end MetalNes.ByteWords
