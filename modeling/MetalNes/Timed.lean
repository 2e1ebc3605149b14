import Mathlib.Logic.Function.Iterate

namespace MetalNes.Timed

variable {σ : Type} {step : σ → σ}

/-- So many steps lead from every state of the one kind to a state of the other. -/
def Takes (step : σ → σ) (P : σ → Prop) (n : Nat) (Q : σ → Prop) : Prop := ∀ s, P s → Q (step^[n] s)

variable {P P' Q Q' R : σ → Prop} {m n : Nat}

theorem Takes.refl (P : σ → Prop) : Takes step P 0 P := fun _ hs => hs

theorem Takes.trans (h : Takes step P m Q) (h' : Takes step Q n R) : Takes step P (m + n) R := by
  intro s hs
  rw [Nat.add_comm, Function.iterate_add_apply]
  exact h' _ (h s hs)

theorem Takes.consequence (h : Takes step P n Q) (hpre : ∀ s, P' s → P s) (hpost : ∀ s, Q s → Q' s) :
    Takes step P' n Q' := fun s hs => hpost _ (h s (hpre s hs))

/-- The steps of a loop whose passes are counted down to zero. -/
def total (cost : Nat → Nat) : Nat → Nat
  | 0 => 0
  | n + 1 => cost (n + 1) + total cost n

/-- A loop with an invariant for each number of passes that are left. -/
theorem Takes.countdown {I : Nat → σ → Prop} {cost : Nat → Nat}
    (hpass : ∀ k < n, Takes step (I (k + 1)) (cost (k + 1)) (I k)) : Takes step (I n) (total cost n) (I 0) := by
  induction n with
  | zero => exact .refl _
  | succ n ih => exact (hpass n (Nat.lt_succ_self n)).trans (ih fun k hk => hpass k (Nat.lt_succ_of_lt hk))

end MetalNes.Timed
