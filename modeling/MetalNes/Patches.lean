import Mathlib.Data.List.Chain

namespace MetalNes.Patches

variable {α : Type}

/-- Some values, and the place from which on they are written. -/
structure Patch (α : Type) where
  offset : Nat
  values : List α

namespace Patch

def stop (p : Patch α) : Nat := p.offset + p.values.length

def Covers (p : Patch α) (i : Nat) : Prop := p.offset ≤ i ∧ i < p.stop

/-- The one ends where the other starts, or before it. -/
def Before (p q : Patch α) : Prop := p.stop ≤ q.offset

instance (p q : Patch α) : Decidable (p.Before q) := inferInstanceAs (Decidable (_ ≤ _))

instance : IsTrans (Patch α) Before :=
  ⟨fun _ q _ hpq hqr => hpq.trans ((Nat.le_add_right q.offset q.values.length).trans hqr)⟩

def apply (p : Patch α) (xs : List α) : List α := xs.take p.offset ++ p.values ++ xs.drop p.stop

variable {p : Patch α} {xs : List α} (hfit : p.stop ≤ xs.length)

include hfit

theorem length_take_offset : (xs.take p.offset).length = p.offset := by
  have hstop : p.stop = p.offset + p.values.length := rfl
  rw [List.length_take]
  omega

theorem length_apply : (p.apply xs).length = xs.length := by
  have hstop : p.stop = p.offset + p.values.length := rfl
  rw [apply, List.length_append, List.length_append, length_take_offset hfit, List.length_drop]
  omega

theorem getElem?_apply {i : Nat} (hi : i < p.values.length) : (p.apply xs)[p.offset + i]? = p.values[i]? := by
  have htake := length_take_offset hfit
  rw [apply, List.append_assoc, List.getElem?_append_right (by omega), htake, Nat.add_sub_cancel_left,
    List.getElem?_append_left hi]

theorem getElem?_apply_free {i : Nat} (hi : ¬ p.Covers i) : (p.apply xs)[i]? = xs[i]? := by
  have hstop : p.stop = p.offset + p.values.length := rfl
  have htake := length_take_offset hfit
  rcases Nat.lt_or_ge i p.offset with hlt | hge
  · rw [apply, List.append_assoc, List.getElem?_append_left (by omega), List.getElem?_take, if_pos hlt]
  · have hbehind : p.stop ≤ i := not_lt.mp fun h => hi ⟨hge, h⟩
    have hlen : (xs.take p.offset ++ p.values).length = p.stop := by rw [List.length_append, htake, hstop]
    rw [apply, List.getElem?_append_right (by omega), hlen, List.getElem?_drop, Nat.add_sub_cancel' hbehind]

end Patch

def write (ps : List (Patch α)) (xs : List α) : List α := ps.foldl (fun xs p => p.apply xs) xs

variable {ps : List (Patch α)} {xs : List α}

theorem getElem?_write_free (hfit : ∀ p ∈ ps, p.stop ≤ xs.length) {i : Nat} (hi : ∀ p ∈ ps, ¬ p.Covers i) :
    (write ps xs)[i]? = xs[i]? := by
  induction ps generalizing xs with
  | nil => rfl
  | cons q ps ih =>
      obtain ⟨hq, hps⟩ := List.forall_mem_cons.mp hfit
      obtain ⟨hfree, hrest⟩ := List.forall_mem_cons.mp hi
      have hlen := Patch.length_apply hq
      rw [write, List.foldl_cons]
      exact (ih (fun p hp => (hps p hp).trans hlen.ge) hrest).trans (Patch.getElem?_apply_free hq hfree)

theorem getElem?_write (hfit : ∀ p ∈ ps, p.stop ≤ xs.length) (horder : ps.IsChain Patch.Before) {p : Patch α}
    (hp : p ∈ ps) {i : Nat} (hi : i < p.values.length) : (write ps xs)[p.offset + i]? = p.values[i]? := by
  induction ps generalizing xs with
  | nil => cases hp
  | cons q ps ih =>
      obtain ⟨hq, hps⟩ := List.forall_mem_cons.mp hfit
      have hlen := Patch.length_apply hq
      have hfit' : ∀ r ∈ ps, r.stop ≤ (q.apply xs).length := fun r hr => (hps r hr).trans hlen.ge
      rw [write, List.foldl_cons]
      rcases List.mem_cons.mp hp with rfl | hp
      · refine (getElem?_write_free hfit' fun r hr hcovers => ?_).trans (Patch.getElem?_apply hq hi)
        have hbefore : p.stop ≤ r.offset := (List.pairwise_cons.mp horder.pairwise).1 r hr
        have hstop : p.stop = p.offset + p.values.length := rfl
        have hr := hcovers.1
        omega
      · exact ih hfit' horder.tail hp

end MetalNes.Patches
