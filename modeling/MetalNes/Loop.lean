import Mathlib.Logic.Basic

namespace MetalNes.Loop

variable {σ ρ : Type}

/-- One pass through a loop body either reaches the next iteration or leaves
the loop with a result. -/
inductive Iter (σ ρ : Type)
  | next (s : σ)
  | done (r : ρ)

/-- Run a loop body with a bound on the number of passes. The bound being used
up says nothing about the loop; only a returned result does. -/
def run (body : σ → Iter σ ρ) : Nat → σ → Option ρ
  | 0, _ => none
  | fuel + 1, s => match body s with
    | .next t => run body fuel t
    | .done r => some r

def Returns (body : σ → Iter σ ρ) (s : σ) (r : ρ) : Prop := ∃ fuel, run body fuel s = some r

variable {body : σ → Iter σ ρ}

theorem run_done {s : σ} {r : ρ} (h : body s = .done r) (fuel : Nat) :
    run body (fuel + 1) s = some r := by
  rw [run, h]

theorem run_next {s t : σ} (h : body s = .next t) (fuel : Nat) :
    run body (fuel + 1) s = run body fuel t := by
  rw [run, h]

theorem run_succ {fuel : Nat} {s : σ} {r : ρ} (h : run body fuel s = some r) :
    run body (fuel + 1) s = some r := by
  induction fuel generalizing s with
  | zero => simp [run] at h
  | succ fuel ih =>
      cases hb : body s with
      | done q => rw [run_done hb] at h ⊢; exact h
      | next t => rw [run_next hb] at h ⊢; exact ih h

theorem run_mono {m n : Nat} (hmn : m ≤ n) {s : σ} {r : ρ} (h : run body m s = some r) :
    run body n s = some r := by
  induction hmn with
  | refl => exact h
  | step _ ih => exact run_succ ih

variable {σ' ρ' : Type} {body' : σ' → Iter σ' ρ'}

def Iter.map (f : σ' → σ) (g : ρ' → ρ) : Iter σ' ρ' → Iter σ ρ
  | .next s => .next (f s)
  | .done r => .done (g r)

theorem run_map {f : σ' → σ} {g : ρ' → ρ} (h : ∀ s, body (f s) = (body' s).map f g) (fuel : Nat) (s : σ') :
    run body fuel (f s) = (run body' fuel s).map g := by
  induction fuel generalizing s with
  | zero => rfl
  | succ fuel ih =>
      have hs := h s
      cases hb : body' s with
      | done r =>
          rw [hb] at hs
          rw [run_done hs, run_done hb]
          rfl
      | next t =>
          rw [hb] at hs
          rw [run_next hs, run_next hb]
          exact ih t

/-- What every pass keeps, and what then holds where one leaves the loop, holds of the
result of a run. -/
theorem run_invariant {P : σ → Prop} {Q : ρ → Prop} (hnext : ∀ s t, P s → body s = .next t → P t)
    (hdone : ∀ s r, P s → body s = .done r → Q r) {fuel : Nat} {s : σ} {r : ρ} (hs : P s)
    (hrun : run body fuel s = some r) : Q r := by
  induction fuel generalizing s with
  | zero => cases hrun
  | succ fuel ih =>
      cases hb : body s with
      | done q =>
          rw [run_done hb] at hrun
          cases hrun
          exact hdone s r hs hb
      | next t =>
          rw [run_next hb] at hrun
          exact ih (hnext s t hs hb) hrun

theorem run_of_done {P : ρ → Prop} (h : ∀ s r, body s = .done r → P r) {fuel : Nat} {s : σ} {r : ρ}
    (hrun : run body fuel s = some r) : P r :=
  run_invariant (fun _ _ _ _ => trivial) (fun s r _ => h s r) trivial hrun

theorem Returns.unique {s : σ} {q r : ρ} (hq : Returns body s q) (hr : Returns body s r) : q = r := by
  obtain ⟨m, hm⟩ := hq
  obtain ⟨n, hn⟩ := hr
  have hm' := run_mono (Nat.le_max_left m n) hm
  have hn' := run_mono (Nat.le_max_right m n) hn
  exact Option.some.inj (hm'.symm.trans hn')

theorem Returns.of_done {s : σ} {r : ρ} (h : body s = .done r) : Returns body s r :=
  ⟨1, run_done h 0⟩

theorem Returns.of_next {s t : σ} {r : ρ} (h : body s = .next t) (ht : Returns body t r) :
    Returns body s r := by
  obtain ⟨fuel, hf⟩ := ht
  exact ⟨fuel + 1, (run_next h fuel).trans hf⟩

/-- Some passes lead from the one state to the other. -/
def Reaches (body : σ → Iter σ ρ) (k : Nat) (s t : σ) : Prop :=
  ∀ fuel, run body (k + fuel) s = run body fuel t

theorem Reaches.refl (s : σ) : Reaches body 0 s s := fun fuel => by rw [Nat.zero_add]

theorem Reaches.of_next {s t u : σ} {k : Nat} (h : body s = .next t) (ht : Reaches body k t u) :
    Reaches body (k + 1) s u := fun fuel => by
  rw [Nat.add_right_comm, run_next h]
  exact ht fuel

theorem Reaches.run_done {s t : σ} {k : Nat} {r : ρ} (h : Reaches body k s t) (ht : body t = .done r) :
    run body (k + 1) s = some r := (h 1).trans (Loop.run_done ht 0)

theorem Reaches.run {s t : σ} {k fuel : Nat} {r : ρ} (h : Reaches body k s t)
    (hs : run body fuel s = some r) : run body fuel t = some r := by
  rw [← h fuel]
  exact run_mono (Nat.le_add_left fuel k) hs

/-- The states a loop comes to, the first one included. -/
inductive Visits (body : σ → Iter σ ρ) : σ → σ → Prop
  | here (s : σ) : Visits body s s
  | next {s t u : σ} (h : body s = .next t) (ht : Visits body t u) : Visits body s u

theorem Visits.invariant {P : σ → Prop} (hstep : ∀ s t, P s → body s = .next t → P t) {s t : σ}
    (h : Visits body s t) (hs : P s) : P t := by
  induction h with
  | here s => exact hs
  | next hnext _ ih => exact ih (hstep _ _ hs hnext)

theorem Visits.returns {s t : σ} {r : ρ} (h : Visits body s t) (hr : Returns body s r) : Returns body t r := by
  induction h with
  | here s => exact hr
  | next hnext _ ih =>
      obtain ⟨fuel, hrun⟩ := hr
      refine ih ?_
      cases fuel with
      | zero => cases hrun
      | succ fuel => exact ⟨fuel, (run_next hnext fuel).symm.trans hrun⟩

theorem Visits.snoc {s t u : σ} (h : Visits body s t) (ht : body t = .next u) : Visits body s u := by
  induction h with
  | here s => exact .next ht (.here u)
  | next hnext _ ih => exact .next hnext (ih ht)

theorem Visits.trans {s t u : σ} (h : Visits body s t) (ht : Visits body t u) : Visits body s u := by
  induction h with
  | here s => exact ht
  | next hnext _ ih => exact .next hnext (ih ht)

theorem Visits.returns_done {s t : σ} {r : ρ} (h : Visits body s t) (ht : body t = .done r) : Returns body s r := by
  induction h with
  | here s => exact .of_done ht
  | next hnext _ ih => exact .of_next hnext (ih ht)

theorem exists_done {fuel : Nat} {s : σ} {r : ρ} (h : run body fuel s = some r) :
    ∃ t, Visits body s t ∧ body t = .done r := by
  induction fuel generalizing s with
  | zero => cases h
  | succ fuel ih =>
      cases hb : body s with
      | done q =>
          rw [run_done hb] at h
          cases h
          exact ⟨s, .here s, hb⟩
      | next t =>
          rw [run_next hb] at h
          obtain ⟨u, hu, hdone⟩ := ih h
          exact ⟨u, .next hb hu, hdone⟩

/-- A pass that comes back to the very same loop state never ends. -/
theorem not_returns_of_stuck {s : σ} (h : body s = .next s) (r : ρ) : ¬ Returns body s r := by
  rintro ⟨fuel, hf⟩
  induction fuel with
  | zero => simp [run] at hf
  | succ fuel ih => rw [run_next h] at hf; exact ih hf

theorem Returns.of_first {s : σ} {q r : ρ} (h : body s = .done q) (hr : Returns body s r) : r = q :=
  hr.unique (.of_done h)

end MetalNes.Loop
