import Mathlib.Logic.Basic
import Mathlib.Order.Nat

namespace MetalNes.Outcomes

variable {ε σ α β : Type}

/-- The state that a computation leaves, whether it returns or stops. -/
def final : EStateM.Result ε σ α → σ
  | .ok _ s => s
  | .error _ s => s

theorem run_bind_ok {x : EStateM ε σ α} {f : α → EStateM ε σ β} {s t : σ} {a : α} (h : x.run s = .ok a t) :
    (x >>= f).run s = (f a).run t := by
  show EStateM.bind x f s = f a t
  rw [EStateM.bind, show x s = .ok a t from h]

theorem run_bind_error {x : EStateM ε σ α} {f : α → EStateM ε σ β} {s t : σ} {e : ε} (h : x.run s = .error e t) :
    (x >>= f).run s = .error e t := by
  show EStateM.bind x f s = .error e t
  rw [EStateM.bind, show x s = .error e t from h]

/-- Where the computation returns, the one condition holds, and where it stops, the other. -/
def Ends (x : EStateM ε σ α) (s : σ) (stops : σ → Prop) (returns : α → σ → Prop) : Prop :=
  match x.run s with
  | .ok a t => returns a t
  | .error _ t => stops t

section Ends

variable {x : EStateM ε σ α} {s : σ} {stops stops' : σ → Prop} {returns : α → σ → Prop}

theorem Ends.of_ok {a : α} {t : σ} (hx : x.run s = .ok a t) (h : returns a t) : Ends x s stops returns := by
  rw [Ends, hx]
  exact h

theorem Ends.of_error {e : ε} {t : σ} (hx : x.run s = .error e t) (h : stops t) : Ends x s stops returns := by
  rw [Ends, hx]
  exact h

theorem Ends.bind {f : α → EStateM ε σ β} {returns' : β → σ → Prop} (hx : Ends x s stops returns)
    (hstops : ∀ t, stops t → stops' t) (hf : ∀ a t, returns a t → Ends (f a) t stops' returns') :
    Ends (x >>= f) s stops' returns' := by
  rw [Ends] at hx
  cases h : x.run s with
  | ok a t =>
      rw [h] at hx
      have hstep : (x >>= f).run s = (f a).run t := run_bind_ok h
      rw [Ends, hstep]
      exact hf a t hx
  | error e t =>
      rw [h] at hx
      exact .of_error (run_bind_error h) (hstops t hx)

theorem Ends.bind_ok {f : α → EStateM ε σ β} {returns' : β → σ → Prop} {a : α} {t : σ}
    (hx : x.run s = .ok a t) (hf : Ends (f a) t stops returns') : Ends (x >>= f) s stops returns' := by
  rw [Ends, run_bind_ok hx]
  exact hf

theorem Ends.mono {returns' : α → σ → Prop} (hx : Ends x s stops returns)
    (hstops : ∀ t, stops t → stops' t) (hreturns : ∀ a t, returns a t → returns' a t) :
    Ends x s stops' returns' := by
  rw [Ends] at hx ⊢
  cases h : x.run s with
  | ok a t =>
      rw [h] at hx
      exact hreturns a t hx
  | error e t =>
      rw [h] at hx
      exact hstops t hx

theorem ends_iff_final (stops : σ → Prop) : (Ends x s stops fun _ => stops) ↔ stops (final (x.run s)) := by
  rw [Ends]
  cases x.run s <;> exact Iff.rfl

end Ends

/-- With every bound that is large enough, the computation returns in the same way. -/
def Settles (x : Nat → EStateM ε σ α) (s : σ) (a : α) (t : σ) : Prop :=
  ∃ n, ∀ fuel, n ≤ fuel → (x fuel).run s = .ok a t

theorem Settles.of_eq {x : Nat → EStateM ε σ α} {s t : σ} {a : α} (h : ∀ fuel, (x fuel).run s = .ok a t) :
    Settles x s a t := ⟨0, fun fuel _ => h fuel⟩

theorem Settles.bind {x : Nat → EStateM ε σ α} {f : Nat → α → EStateM ε σ β} {s t u : σ} {a : α} {b : β}
    (hx : Settles x s a t) (hf : Settles (fun fuel => f fuel a) t b u) :
    Settles (fun fuel => x fuel >>= f fuel) s b u := by
  obtain ⟨m, hm⟩ := hx
  obtain ⟨n, hn⟩ := hf
  refine ⟨max m n, fun fuel hfuel => ?_⟩
  rw [run_bind_ok (hm fuel ((Nat.le_max_left m n).trans hfuel))]
  exact hn fuel ((Nat.le_max_right m n).trans hfuel)

theorem Settles.unique {x : Nat → EStateM ε σ α} {s t u : σ} {a b : α} (ha : Settles x s a t)
    (hb : Settles x s b u) : a = b ∧ t = u := by
  obtain ⟨m, hm⟩ := ha
  obtain ⟨n, hn⟩ := hb
  have hsame := (hm _ (Nat.le_max_left m n)).symm.trans (hn _ (Nat.le_max_right m n))
  cases hsame
  exact ⟨rfl, rfl⟩

end MetalNes.Outcomes
