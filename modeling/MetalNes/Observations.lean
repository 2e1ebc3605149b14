import Mathlib.Data.List.Basic
import Mathlib.Logic.Function.Iterate

namespace MetalNes.Observations

variable {σ α : Type}

/-- What a machine shows in its first steps. A step may show nothing. -/
def observed (step : σ → σ) (view : σ → Option α) : Nat → σ → List α
  | 0, _ => []
  | n + 1, s => (view s).toList ++ observed step view n (step s)

variable {step : σ → σ} {view : σ → Option α}

theorem observed_add (m n : Nat) (s : σ) :
    observed step view (m + n) s = observed step view m s ++ observed step view n (step^[m] s) := by
  induction m generalizing s with
  | zero => rw [Nat.zero_add, observed, List.nil_append, Function.iterate_zero_apply]
  | succ m ih =>
      rw [Nat.succ_add, observed, observed, ih, List.append_assoc, Function.iterate_succ_apply]

theorem observed_quiet {n : Nat} {s : σ} (h : ∀ i < n, view (step^[i] s) = none) :
    observed step view n s = [] := by
  induction n generalizing s with
  | zero => rfl
  | succ n ih =>
      have hfirst := h 0 (Nat.succ_pos n)
      rw [Function.iterate_zero_apply] at hfirst
      rw [observed, hfirst, ih fun i hi => h (i + 1) (Nat.succ_lt_succ hi)]
      rfl

/-- A machine that shows one value after the other of an iteration, with a state behind
each that stands for the next one. -/
theorem observed_rounds {R : σ → α → Prop} {next : α → α} {s : σ} {x : α} {n : Nat}
    (h : ∀ i < n, ∀ t, R t (next^[i] x) →
      ∃ k, observed step view k t = [next^[i] x] ∧ R (step^[k] t) (next^[i + 1] x))
    (hs : R s x) :
    ∃ k, observed step view k s = (List.range n).map (fun i => next^[i] x) ∧ R (step^[k] s) (next^[n] x) := by
  induction n with
  | zero => exact ⟨0, rfl, hs⟩
  | succ n ih =>
      obtain ⟨k, hk, hR⟩ := ih fun i hi => h i (Nat.lt_succ_of_lt hi)
      obtain ⟨j, hj, hnext⟩ := h n (Nat.lt_succ_self n) (step^[k] s) hR
      refine ⟨k + j, ?_, ?_⟩
      · rw [observed_add, hk, hj, List.range_succ, List.map_append]
        rfl
      · rwa [Nat.add_comm, Function.iterate_add_apply]

end MetalNes.Observations
