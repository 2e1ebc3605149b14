import MetalNes.BitFolds
import MetalNes.NesClock

namespace MetalNes.LogicFold

open BitFolds NesBus NesTable NesOperations NesClock

def logicOp : BitOp → NesOp
  | .and => .AND
  | .or => .ORA
  | .xor => .EOR

/-- Logical operations run one after the other, each on the A that the last one left
and on a byte that it fetches. In between everything but A may change. -/
inductive LogicRun : U8 → List (BitOp × U8) → U8 → Prop
  | nil (A : U8) : LogicRun A [] A
  | cons {A B A' : U8} {s : Nes} {x : BitOp × U8} {ops : List (BitOp × U8)} (hA : s.A = A)
      (hoperand : operand s = x.2) (hB : (operate (logicOp x.1) s).1.A = B) (h : LogicRun B ops A') :
      LogicRun A (x :: ops) A'

theorem logicOp_A (op : BitOp) (s : Nes) : (operate (logicOp op) s).1.A =
    if op = .xor then s.A else op.apply s.A (operand s) := by
  cases op with
  | and | or =>
      simp only [logicOp, operate, nesAND, nesORA, nesFetch_eq, setZN, nesSetflag]
      rfl
  | xor =>
      simp only [logicOp, operate, nesEOR, nesFetch_eq, setZN, nesSetflag]
      rfl

theorem logicRun_foldLost {A A' : U8} {ops : List (BitOp × U8)} (h : LogicRun A ops A') :
    A' = foldLost A ops := by
  induction h with
  | nil A => rfl
  | cons hA hoperand hB h ih =>
      rw [ih, ← hB, logicOp_A, hA, hoperand]
      rfl

/-- A run folds its operations exactly where the exclusive ors behind the last step
that decides a bit flip it an even number of times. -/
theorem logicRun_iff {A A' : U8} {ops : List (BitOp × U8)} (h : LogicRun A ops A') :
    A' = fold A ops ↔ ∀ i < 8, Even (lateFlips i ops) := by
  rw [logicRun_foldLost h, foldLost_iff]

theorem masked_run : (0x03 : U8) = fold 0x07 [(.xor, 0x18), (.and, 0x03)] :=
  (logicRun_iff
    (.cons (s := immediateMachine 0x49 0x07 0x18 0) (B := 0x07) rfl (by decide +kernel) (by decide +kernel)
      (.cons (s := immediateMachine 0x29 0x07 0x03 0) (B := 0x03) rfl (by decide +kernel) (by decide +kernel)
        (.nil 0x03)))).mpr (by decide)

theorem lost_exclusive_or : LogicRun 0 [(.xor, 1)] 0 ∧ 0 ≠ fold (0 : U8) [(.xor, 1)] :=
  ⟨.cons (s := immediateMachine 0x49 0 1 0) (B := 0) rfl (by decide +kernel) (by decide +kernel) (.nil 0), by decide⟩

end MetalNes.LogicFold
