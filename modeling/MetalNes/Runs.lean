import Mathlib.Data.List.Basic

namespace MetalNes.Runs

variable {σ ε : Type}

inductive Trace (Step : σ → ε → σ → Prop) : σ → List (ε × σ) → Prop
  | nil (s : σ) : Trace Step s []
  | cons {s t : σ} {e : ε} {rest : List (ε × σ)} :
      Step s e t → Trace Step t rest → Trace Step s ((e, t) :: rest)

def Meets (Ok : σ → ε → Prop) : σ → List (ε × σ) → Prop
  | _, [] => True
  | s, (e, t) :: rest => Ok s e ∧ Meets Ok t rest

variable {Step : σ → ε → σ → Prop} {Ok : σ → ε → Prop} {Inv Good : σ → Prop}

theorem meets_of_forall (hok : ∀ s e, Ok s e) (s : σ) (steps : List (ε × σ)) : Meets Ok s steps := by
  induction steps generalizing s with
  | nil => trivial
  | cons x rest ih => exact ⟨hok s x.1, ih x.2⟩

theorem Trace.invariant_of {s : σ} {steps : List (ε × σ)} (h : Trace Step s steps)
    (keep : ∀ s e t, Inv s → Step s e t → Ok s e → Inv t) (hok : Meets Ok s steps) (hs : Inv s) :
    ∀ x ∈ steps, Inv x.2 := by
  induction h with
  | nil => exact nofun
  | cons hstep _ ih =>
      have ht := keep _ _ _ hs hstep hok.1
      exact List.forall_mem_cons.mpr ⟨ht, ih hok.2 ht⟩

theorem Trace.invariant {s : σ} {steps : List (ε × σ)} (h : Trace Step s steps)
    (keep : ∀ s e t, Inv s → Step s e t → Inv t) (hs : Inv s) : ∀ x ∈ steps, Inv x.2 :=
  h.invariant_of (fun s e t hs hstep _ => keep s e t hs hstep) (meets_of_forall (fun _ _ => trivial) s steps) hs

theorem Trace.constant {α : Type} {f : σ → α} {s : σ} {steps : List (ε × σ)} (h : Trace Step s steps)
    (keep : ∀ s e t, Inv s → Step s e t → Inv t) (hs : Inv s)
    (same : ∀ s e t, Inv s → Good s → Step s e t → Ok s e → Good t → f t = f s) (hok : Meets Ok s steps)
    (hstart : Good s) (hgood : ∀ x ∈ steps, Good x.2) : ∀ x ∈ steps, f x.2 = f s := by
  induction h with
  | nil => exact nofun
  | cons hstep _ ih =>
      obtain ⟨hfirst, hrest⟩ := List.forall_mem_cons.mp hgood
      have hsame := same _ _ _ hs hstart hstep hok.1 hfirst
      refine List.forall_mem_cons.mpr ⟨hsame, fun x hx => ?_⟩
      exact (ih (keep _ _ _ hs hstep) hok.2 hfirst hrest x hx).trans hsame

/-- The good steps keep an invariant and every other step does damage: then the
runs without damage are those whose steps are all good. -/
theorem Trace.good_iff {s : σ} {steps : List (ε × σ)} (h : Trace Step s steps)
    (keep : ∀ s e t, Inv s → Step s e t → Ok s e → Inv t)
    (damage : ∀ s e t, Inv s → Step s e t → ¬ Ok s e → ¬ Good t)
    (good : ∀ s, Inv s → Good s) (hs : Inv s) : (∀ x ∈ steps, Good x.2) ↔ Meets Ok s steps := by
  induction h with
  | nil => simp [Meets]
  | @cons s t e rest hstep hrest ih =>
      rw [List.forall_mem_cons, Meets]
      by_cases hok : Ok s e
      · have ht := keep s e t hs hstep hok
        rw [ih ht]
        exact and_congr_left' (iff_of_true (good t ht) hok)
      · exact iff_of_false (fun hall => damage s e t hs hstep hok hall.1) fun hall => hok hall.1

end MetalNes.Runs
