import Mathlib.Algebra.Group.Nat.Even
import Mathlib.Data.BitVec
import Mathlib.Data.List.DropRight

namespace MetalNes.BitFolds

variable {w : Nat}

inductive BitOp
  | and | or | xor
  deriving DecidableEq, Repr

def BitOp.apply : BitOp → BitVec w → BitVec w → BitVec w
  | .and, a, m => a &&& m
  | .or, a, m => a ||| m
  | .xor, a, m => a ^^^ m

def fold (a : BitVec w) (ops : List (BitOp × BitVec w)) : BitVec w :=
  ops.foldl (fun a x => x.1.apply a x.2) a

/-- The fold with every exclusive or left out. -/
def foldLost (a : BitVec w) (ops : List (BitOp × BitVec w)) : BitVec w :=
  ops.foldl (fun a x => if x.1 = .xor then a else x.1.apply a x.2) a

/-- The step decides the bit, whatever it was. -/
def forces (i : Nat) : BitOp × BitVec w → Bool
  | (.and, m) => !m.getLsbD i
  | (.or, m) => m.getLsbD i
  | (.xor, _) => false

def flips (i : Nat) : BitOp × BitVec w → Bool
  | (.xor, m) => m.getLsbD i
  | _ => false

/-- The number of flips behind the last step that decides the bit. -/
def lateFlips (i : Nat) (ops : List (BitOp × BitVec w)) : Nat :=
  (ops.rtakeWhile fun x => !forces i x).countP (flips i)

theorem fold_concat (a : BitVec w) (ops : List (BitOp × BitVec w)) (x : BitOp × BitVec w) :
    fold a (ops ++ [x]) = x.1.apply (fold a ops) x.2 := by
  rw [fold, List.foldl_append]
  rfl

theorem foldLost_concat (a : BitVec w) (ops : List (BitOp × BitVec w)) (x : BitOp × BitVec w) :
    foldLost a (ops ++ [x]) = if x.1 = .xor then foldLost a ops else x.1.apply (foldLost a ops) x.2 := by
  rw [foldLost, List.foldl_append]
  rfl

theorem lateFlips_concat (i : Nat) (ops : List (BitOp × BitVec w)) (x : BitOp × BitVec w) :
    lateFlips i (ops ++ [x]) = if forces i x then 0 else lateFlips i ops + (flips i x).toNat := by
  rw [lateFlips, List.rtakeWhile_concat]
  cases hforces : forces i x with
  | true => rfl
  | false =>
      rw [Bool.not_false, if_pos rfl, List.countP_append, List.countP_singleton, if_neg Bool.false_ne_true]
      cases flips i x <;> rfl

theorem bit_lost_iff (a : BitVec w) (ops : List (BitOp × BitVec w)) (i : Nat) :
    (foldLost a ops).getLsbD i = (fold a ops).getLsbD i ↔ Even (lateFlips i ops) := by
  induction ops using List.reverseRecOn with
  | nil => exact iff_of_true rfl Even.zero
  | append_singleton ops x ih =>
      rw [fold_concat, foldLost_concat, lateFlips_concat]
      obtain ⟨op, m⟩ := x
      cases op with
      | and =>
          cases hm : m.getLsbD i with
          | false => simp [BitOp.apply, forces, hm]
          | true => simpa [BitOp.apply, forces, flips, hm] using ih
      | or =>
          cases hm : m.getLsbD i with
          | false => simpa [BitOp.apply, forces, flips, hm] using ih
          | true => simp [BitOp.apply, forces, hm]
      | xor =>
          cases hm : m.getLsbD i with
          | false => simpa [BitOp.apply, forces, flips, hm] using ih
          | true =>
              -- the lost flip turns agreement into its opposite
              have hflip : (foldLost a ops).getLsbD i = !(fold a ops).getLsbD i ↔
                  ¬ (foldLost a ops).getLsbD i = (fold a ops).getLsbD i := by
                cases (foldLost a ops).getLsbD i <;> cases (fold a ops).getLsbD i <;> decide
              simp only [BitOp.apply, forces, flips, hm, if_true, BitVec.getLsbD_xor, Bool.xor_true,
                Bool.false_eq_true, if_false, Bool.toNat_true]
              rw [hflip, ih, Nat.even_add_one]

/-- Leaving the exclusive ors out goes unnoticed where the flips of each bit cancel. -/
theorem foldLost_iff (a : BitVec w) (ops : List (BitOp × BitVec w)) :
    foldLost a ops = fold a ops ↔ ∀ i < w, Even (lateFlips i ops) := by
  constructor
  · intro h i _
    rw [← bit_lost_iff a ops i, h]
  · intro h
    exact BitVec.eq_of_getLsbD_eq fun i hi => (bit_lost_iff a ops i).mpr (h i hi)

end MetalNes.BitFolds
