import Mathlib.Algebra.BigOperators.Group.List.Basic
import Mathlib.Data.List.Chain
import Mathlib.Data.List.Pairwise
import Mathlib.Tactic.Common

namespace MetalNes.Tilings

variable {β : Type}

/-- Pieces that lie one behind the other, the first one at lo and the last one up to hi. -/
def Tiles (start len : β → Nat) : Nat → List β → Nat → Prop
  | lo, [], hi => lo = hi
  | lo, a :: rest, hi => start a = lo ∧ Tiles start len (lo + len a) rest hi

variable {start len len' : β → Nat} {lo hi x : Nat} {xs ys : List β} {a n : β}

theorem tiles_append : Tiles start len lo (xs ++ ys) hi ↔
    ∃ mid, Tiles start len lo xs mid ∧ Tiles start len mid ys hi := by
  induction xs generalizing lo with
  | nil =>
      constructor
      · exact fun h => ⟨lo, rfl, h⟩
      · rintro ⟨mid, rfl, h⟩
        exact h
  | cons a rest ih =>
      constructor
      · rintro ⟨ha, h⟩
        obtain ⟨mid, hrest, hmid⟩ := ih.mp h
        exact ⟨mid, ⟨ha, hrest⟩, hmid⟩
      · rintro ⟨mid, ⟨ha, hrest⟩, hmid⟩
        exact ⟨ha, ih.mpr ⟨mid, hrest, hmid⟩⟩

theorem tiles_singleton : Tiles start len lo [a] hi ↔ start a = lo ∧ lo + len a = hi := Iff.rfl

theorem tiles_middle : Tiles start len lo (xs ++ a :: ys) hi ↔
    Tiles start len lo xs (start a) ∧ Tiles start len (start a + len a) ys hi := by
  rw [tiles_append]
  constructor
  · rintro ⟨mid, hxs, rfl, hys⟩
    exact ⟨hxs, hys⟩
  · rintro ⟨hxs, hys⟩
    exact ⟨start a, hxs, rfl, hys⟩

theorem Tiles.congr (h : Tiles start len lo xs hi) (hsame : ∀ a ∈ xs, len' a = len a) :
    Tiles start len' lo xs hi := by
  induction xs generalizing lo with
  | nil => exact h
  | cons a rest ih =>
      refine ⟨h.1, ?_⟩
      rw [hsame a List.mem_cons_self]
      exact ih h.2 fun c hc => hsame c (List.mem_cons_of_mem a hc)

theorem Tiles.le (h : Tiles start len lo xs hi) : lo ≤ hi := by
  induction xs generalizing lo with
  | nil => exact Nat.le_of_eq h
  | cons a rest ih => exact Nat.le_trans (Nat.le_add_right lo (len a)) (ih h.2)

theorem Tiles.inside (h : Tiles start len lo xs hi) (ha : a ∈ xs) : lo ≤ start a ∧ start a + len a ≤ hi := by
  obtain ⟨pre, post, rfl⟩ := List.append_of_mem ha
  obtain ⟨hpre, hpost⟩ := tiles_middle.mp h
  exact ⟨hpre.le, hpost.le⟩

theorem Tiles.ascending (h : Tiles start len lo xs hi) :
    xs.Pairwise fun a b => start a + len a ≤ start b := by
  induction xs generalizing lo with
  | nil => exact List.Pairwise.nil
  | cons a rest ih =>
      refine List.pairwise_cons.mpr ⟨fun b hb => ?_, ih h.2⟩
      rw [h.1]
      exact (h.2.inside hb).1

theorem Tiles.apart (h : Tiles start len lo xs hi) {b : β} (ha : a ∈ xs) (hb : b ∈ xs) (hne : a ≠ b) :
    start a + len a ≤ start b ∨ start b + len b ≤ start a := by
  obtain ⟨pre, post, rfl⟩ := List.append_of_mem ha
  have hasc := List.pairwise_append.mp h.ascending
  rcases List.mem_append.mp hb with hb | hb
  · exact Or.inr (hasc.2.2 b hb a List.mem_cons_self)
  · rcases List.mem_cons.mp hb with rfl | hb
    · exact absurd rfl hne
    · exact Or.inl (List.rel_of_pairwise_cons hasc.2.1 hb)

theorem Tiles.split (h : Tiles start len lo (xs ++ a :: ys) hi) (hxs : ∀ b ∈ xs, len' b = len b)
    (hys : ∀ b ∈ ys, len' b = len b) (hstart : start n = start a + len' a)
    (hlen : len' a + len' n = len a) : Tiles start len' lo (xs ++ a :: n :: ys) hi := by
  obtain ⟨hpre, hpost⟩ := tiles_middle.mp h
  refine tiles_middle.mpr ⟨hpre.congr hxs, hstart, ?_⟩
  rw [Nat.add_assoc, hlen]
  exact hpost.congr hys

theorem Tiles.merge (h : Tiles start len lo (xs ++ a :: n :: ys) hi) (hxs : ∀ b ∈ xs, len' b = len b)
    (hys : ∀ b ∈ ys, len' b = len b) (hlen : len' a = len a + len n) :
    Tiles start len' lo (xs ++ a :: ys) hi := by
  obtain ⟨hpre, -, hpost⟩ := tiles_middle.mp h
  refine tiles_middle.mpr ⟨hpre.congr hxs, ?_⟩
  rw [hlen, ← Nat.add_assoc]
  exact hpost.congr hys

theorem Tiles.start_of_merge (h : Tiles start len lo (xs ++ a :: n :: ys) hi) : start n = start a + len a :=
  (tiles_middle.mp h).2.1

/-- No two pieces next to each other are both free. -/
def Separated (free : β → Prop) (xs : List β) : Prop := xs.IsChain fun a b => ¬ (free a ∧ free b)

section Separated

variable {free free' : β → Prop}

theorem separated_middle : Separated free (xs ++ a :: ys) ↔ Separated free xs ∧ Separated free ys ∧
    (∀ l ∈ xs.getLast?, ¬ (free l ∧ free a)) ∧ ∀ r ∈ ys.head?, ¬ (free a ∧ free r) := by
  rw [Separated, List.isChain_append, List.isChain_cons]
  simp only [List.head?_cons, Option.mem_def, Option.some.injEq, forall_eq', Separated]
  tauto

theorem separated_cons : Separated free (a :: ys) ↔ (∀ r ∈ ys.head?, ¬ (free a ∧ free r)) ∧ Separated free ys :=
  List.isChain_cons

theorem separated_of_used (ha : ¬ free a) :
    Separated free (xs ++ a :: ys) ↔ Separated free xs ∧ Separated free ys := by
  rw [separated_middle]
  tauto

theorem Separated.congr (h : Separated free xs) (hsame : ∀ a ∈ xs, free' a → free a) : Separated free' xs :=
  h.imp_of_mem_imp fun a b ha hb hnot hboth => hnot ⟨hsame a ha hboth.1, hsame b hb hboth.2⟩

theorem Separated.join (h : Separated free (xs ++ a :: c :: ys)) (ha : ¬ free' a)
    (hsame : ∀ u ∈ xs ++ ys, free' u → free u) : Separated free' (xs ++ a :: ys) := by
  obtain ⟨hxs, hrest, -, -⟩ := separated_middle.mp h
  refine (separated_of_used ha).mpr ⟨hxs.congr fun u hu => ?_, (separated_cons.mp hrest).2.congr fun u hu => ?_⟩
  · exact hsame u (List.mem_append_left ys hu)
  · exact hsame u (List.mem_append_right xs hu)

/-- Behind one in use there is room for a free one, if the next one is in use too. -/
theorem Separated.split (h : Separated free (xs ++ a :: ys)) (ha : ¬ free a) (ha' : ¬ free' a)
    (hright : ∀ r ∈ ys.head?, ¬ free r) (hsame : ∀ u ∈ xs ++ ys, free' u → free u) :
    Separated free' (xs ++ a :: c :: ys) := by
  obtain ⟨hxs, hys⟩ := (separated_of_used ha).mp h
  refine (separated_of_used ha').mpr ⟨hxs.congr fun u hu => ?_, separated_cons.mpr ⟨fun r hr hboth => ?_, ?_⟩⟩
  · exact hsame u (List.mem_append_left ys hu)
  · exact hright r hr (hsame r (List.mem_append_right xs (List.mem_of_mem_head? hr)) hboth.2)
  · exact Separated.congr hys fun u hu => hsame u (List.mem_append_right xs hu)

end Separated

end MetalNes.Tilings
