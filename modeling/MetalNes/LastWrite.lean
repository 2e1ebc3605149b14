import Mathlib.Logic.Function.Basic
import Mathlib.Data.List.Basic

namespace MetalNes.LastWrite

variable {κ β : Type} [DecidableEq κ]

def store (m : κ → β) (w : κ × β) : κ → β := Function.update m w.1 w.2

def lastWrite (k : κ) : List (κ × β) → Option β
  | [] => none
  | w :: ws => (lastWrite k ws).or (if w.1 = k then some w.2 else none)

theorem foldl_store (m : κ → β) (ws : List (κ × β)) (k : κ) :
    ws.foldl store m k = (lastWrite k ws).getD (m k) := by
  induction ws generalizing m with
  | nil => rfl
  | cons w ws ih =>
      rw [List.foldl_cons, ih, lastWrite]
      cases lastWrite k ws with
      | some v => rfl
      | none =>
          rw [Option.getD_none, store]
          by_cases hk : w.1 = k
          · rw [← hk, Function.update_self, if_pos rfl]
            rfl
          · rw [Function.update_of_ne (Ne.symm hk), if_neg hk]
            rfl

theorem lastWrite_append (k : κ) (pre post : List (κ × β)) :
    lastWrite k (pre ++ post) = (lastWrite k post).or (lastWrite k pre) := by
  induction pre with
  | nil => simp [lastWrite]
  | cons w pre ih => rw [List.cons_append, lastWrite, ih, lastWrite, Option.or_assoc]

theorem lastWrite_eq_none {k : κ} {ws : List (κ × β)} (h : ∀ w ∈ ws, w.1 ≠ k) : lastWrite k ws = none := by
  induction ws with
  | nil => rfl
  | cons w ws ih =>
      rw [List.forall_mem_cons] at h
      rw [lastWrite, ih h.2, if_neg h.1]
      rfl

theorem lastWrite_middle {k : κ} {v : β} {pre post : List (κ × β)} (h : ∀ w ∈ post, w.1 ≠ k) :
    lastWrite k (pre ++ (k, v) :: post) = some v := by
  rw [lastWrite_append, lastWrite, lastWrite_eq_none h, if_pos rfl]
  rfl

/-- Where no key is written twice, every write is the last one to its key. -/
theorem lastWrite_of_mem {k : κ} {v : β} {ws : List (κ × β)} (hnodup : (ws.map Prod.fst).Nodup)
    (hmem : (k, v) ∈ ws) : lastWrite k ws = some v := by
  obtain ⟨pre, post, rfl⟩ := List.append_of_mem hmem
  rw [List.map_append, List.map_cons] at hnodup
  have hpost := (List.nodup_cons.mp (List.nodup_append.mp hnodup).2.1).1
  refine lastWrite_middle fun w hw he => hpost ?_
  have hkey : w.1 ∈ post.map Prod.fst := List.mem_map_of_mem hw
  rwa [he] at hkey

theorem foldl_store_eq_self_iff (m : κ → β) (ws : List (κ × β)) :
    ws.foldl store m = m ↔ ∀ k v, lastWrite k ws = some v → m k = v := by
  constructor
  · intro h k v hlast
    have hk := congrFun h k
    rw [foldl_store, hlast] at hk
    exact hk.symm
  · intro h
    funext k
    rw [foldl_store]
    cases hlast : lastWrite k ws with
    | none => rfl
    | some v => exact (h k v hlast).symm

end MetalNes.LastWrite
