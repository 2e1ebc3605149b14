import Mathlib.Data.List.Nodup

namespace MetalNes.SkipWalks

variable {α σ : Type}

/-- What happens at an element of a list: the next one is skipped, the walk stops, or it
goes on. -/
inductive Pass (σ : Type)
  | skip
  | stop
  | pass (s : σ)

theorem skip_iff {p : Prop} [Decidable p] {pass : Pass σ} (hpass : pass ≠ .skip) :
    (if p then .skip else pass) = .skip ↔ p := by
  split
  · next hp => exact iff_of_true rfl hp
  · next hp => exact iff_of_false hpass hp

/-- The elements that are visited, and whether the walk stays in the list. -/
def walk (f : α → σ → Pass σ) : List α → σ → List α × Bool
  | [], _ => ([], true)
  | [m], s => match f m s with
    | .skip => ([m], false)
    | _ => ([m], true)
  | m :: n :: rest, s => match f m s with
    | .skip => (m :: (walk f rest s).1, (walk f rest s).2)
    | .stop => ([m], true)
    | .pass t => (m :: (walk f (n :: rest) t).1, (walk f (n :: rest) t).2)

/-- The elements up to the one where the walk stops, none of them skipped. -/
def upToStop (f : α → σ → Pass σ) : List α → σ → List α
  | [], _ => []
  | m :: rest, s => match f m s with
    | .skip => m :: upToStop f rest s
    | .stop => [m]
    | .pass t => m :: upToStop f rest t

variable {f : α → σ → Pass σ}

theorem upToStop_head (m : α) (rest : List α) (s : σ) : ∃ vs, upToStop f (m :: rest) s = m :: vs := by
  rw [upToStop]
  cases f m s with
  | skip => exact ⟨_, rfl⟩
  | stop => exact ⟨_, rfl⟩
  | pass t => exact ⟨_, rfl⟩

theorem walk_subset (ms : List α) (s : σ) : ∀ m ∈ (walk f ms s).1, m ∈ ms := by
  fun_induction walk f ms s with
  | case1 => exact fun _ h => h
  | case2 => exact fun _ h => h
  | case3 => exact fun _ h => h
  | case4 m n rest s hf ih =>
      rw [List.forall_mem_cons]
      exact ⟨List.mem_cons_self, fun k hk => List.mem_cons_of_mem m (List.mem_cons_of_mem n (ih k hk))⟩
  | case5 m n rest s hf =>
      rw [List.forall_mem_cons]
      exact ⟨List.mem_cons_self, fun _ h => absurd h List.not_mem_nil⟩
  | case6 m n rest s t hf ih =>
      rw [List.forall_mem_cons]
      exact ⟨List.mem_cons_self, fun k hk => List.mem_cons_of_mem m (ih k hk)⟩

theorem walk_subset_of {τ : Type} {g : α → τ → Pass τ} (hskip : ∀ m s t, f m s = .skip → g m t = .skip)
    (hpass : ∀ m s s' t, f m s = .pass s' → ∃ t', g m t = .pass t') (ms : List α) (s : σ) (t : τ) :
    (walk f ms s).1 ⊆ (walk g ms t).1 := by
  fun_induction walk f ms s generalizing t with
  | case1 => exact List.nil_subset _
  | case2 m s hf =>
      rw [walk, hskip m s t hf]
      exact fun _ h => h
  | case3 m s hf =>
      rw [walk]
      split <;> exact fun _ h => h
  | case4 m n rest s hf ih =>
      rw [walk, hskip m s t hf]
      exact List.cons_subset_cons m (ih t)
  | case5 m n rest s hf =>
      rw [walk]
      split <;> exact List.cons_subset_cons m (List.nil_subset _)
  | case6 m n rest s s' hf ih =>
      obtain ⟨t', hg⟩ := hpass m s s' t hf
      rw [walk, hg]
      exact List.cons_subset_cons m (ih t')

/-- The element behind a skip is not visited later either. -/
theorem walk_ne_of_skipped {κ : Type} (g : α → κ) {n : α} {rest : List α} (hms : ((n :: rest).map g).Nodup) (s : σ) :
    (walk f rest s).1.map g ≠ (upToStop f (n :: rest) s).map g := by
  intro h
  obtain ⟨vs, hn⟩ := upToStop_head (f := f) n rest s
  rw [hn, List.map_cons] at h
  obtain ⟨k, hk, hkey⟩ := List.mem_map.mp (h ▸ List.mem_cons_self)
  have hmem := List.mem_map_of_mem (f := g) (walk_subset (f := f) rest s k hk)
  rw [hkey] at hmem
  exact (List.nodup_cons.mp hms).1 hmem

/-- A walk stays in the list and visits all elements up to where it stops, by their keys,
exactly if it skips behind none of them. -/
theorem walk_complete_iff {κ : Type} (g : α → κ) {Skips : α → Prop} (hskip : ∀ m s, f m s = .skip ↔ Skips m)
    {ms : List α} (hms : (ms.map g).Nodup) (s : σ) :
    (walk f ms s).1.map g = (upToStop f ms s).map g ∧ (walk f ms s).2 = true ↔
      ∀ m ∈ upToStop f ms s, ¬ Skips m := by
  fun_induction walk f ms s with
  | case1 => simp [upToStop]
  | case2 m s hf =>
      have hm : m ∈ upToStop f [m] s := by
        rw [upToStop, hf]
        exact List.mem_cons_self
      constructor
      · rintro ⟨-, h⟩
        cases h
      · exact fun h => absurd ((hskip m s).mp hf) (h m hm)
  | case3 m s hf =>
      have hall : upToStop f [m] s = [m] := by
        rw [upToStop]
        cases hm : f m s with
        | skip => exact absurd hm hf
        | stop => rfl
        | pass t => rfl
      rw [hall]
      refine iff_of_true ⟨rfl, rfl⟩ fun k hk => ?_
      rw [List.mem_singleton.mp hk, ← hskip m s]
      exact hf
  | case4 m n rest s hf ih =>
      have hall : upToStop f (m :: n :: rest) s = m :: upToStop f (n :: rest) s := by rw [upToStop, hf]
      have hm : Skips m := (hskip m s).mp hf
      rw [hall]
      refine iff_of_false (fun h => ?_) fun h => h m List.mem_cons_self hm
      exact walk_ne_of_skipped g (List.nodup_cons.mp hms).2 s (List.cons.inj h.1).2
  | case5 m n rest s hf =>
      have hall : upToStop f (m :: n :: rest) s = [m] := by rw [upToStop, hf]
      rw [hall]
      refine iff_of_true ⟨rfl, rfl⟩ fun k hk => ?_
      rw [List.mem_singleton.mp hk, ← hskip m s, hf]
      intro h
      cases h
  | case6 m n rest s t hf ih =>
      have hall : upToStop f (m :: n :: rest) s = m :: upToStop f (n :: rest) t := by rw [upToStop, hf]
      have hm : ¬ Skips m := by
        rw [← hskip m s, hf]
        intro h
        cases h
      rw [hall, List.forall_mem_cons, and_iff_right hm, ← ih (List.nodup_cons.mp hms).2, List.map_cons, List.map_cons,
        List.cons.injEq]
      exact and_congr_left fun _ => and_iff_right rfl

end MetalNes.SkipWalks
