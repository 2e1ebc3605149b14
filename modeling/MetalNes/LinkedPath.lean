import Mathlib.Data.Finset.Card
import Mathlib.Data.Finset.Range

namespace MetalNes.LinkedPath

variable {α : Type}

inductive Link (α : Type)
  | missing
  | last
  | next (b : α)

/-- The nodes of a chain that ends, from its first one on. -/
inductive Path (link : α → Link α) : α → List α → Prop
  | last {a : α} (h : link a = .last) : Path link a [a]
  | next {a b : α} {xs : List α} (h : link a = .next b) (hp : Path link b xs) :
      Path link a (a :: xs)

variable {link : α → Link α}

theorem Path.unique {a : α} {xs ys : List α} (hx : Path link a xs) (hy : Path link a ys) :
    xs = ys := by
  induction hx generalizing ys with
  | last h =>
      cases hy with
      | last _ => rfl
      | next h' _ => cases h.symm.trans h'
  | next h _ ih =>
      cases hy with
      | last h' => cases h.symm.trans h'
      | next h' hp' =>
          cases h.symm.trans h'
          rw [ih hp']

/-- What each link hands on holds of all nodes, if it does of the first one. -/
theorem Path.invariant {P : α → Prop} (hstep : ∀ a b, P a → link a = .next b → P b) {a : α} {xs : List α}
    (h : Path link a xs) (ha : P a) : ∀ b ∈ xs, P b := by
  induction h with
  | last _ => exact fun b hb => List.mem_singleton.mp hb ▸ ha
  | next h _ ih =>
      intro b hb
      rcases List.mem_cons.mp hb with rfl | hb
      · exact ha
      · exact ih (hstep _ _ ha h) b hb

theorem Path.from_mem {a b : α} {xs : List α} (h : Path link a xs) (hb : b ∈ xs) :
    ∃ ys, Path link b ys ∧ ys.length ≤ xs.length := by
  induction h with
  | last h =>
      cases List.mem_singleton.mp hb
      exact ⟨_, .last h, le_rfl⟩
  | next h hp ih =>
      rcases List.mem_cons.mp hb with rfl | hb'
      · exact ⟨_, .next h hp, le_rfl⟩
      · obtain ⟨ys, hys, hlen⟩ := ih hb'
        exact ⟨ys, hys, hlen.trans (Nat.le_succ _)⟩

theorem Path.nodup {a : α} {xs : List α} (h : Path link a xs) : xs.Nodup := by
  induction h with
  | last _ => exact List.nodup_singleton _
  | next h hp ih =>
      refine List.nodup_cons.mpr ⟨fun hmem => ?_, ih⟩
      obtain ⟨ys, hys, hlen⟩ := hp.from_mem hmem
      rw [hys.unique (.next h hp), List.length_cons] at hlen
      omega

theorem Path.exists_cons {a : α} {xs : List α} (h : Path link a xs) : ∃ ys, xs = a :: ys := by
  cases h with
  | last _ => exact ⟨[], rfl⟩
  | next _ _ => exact ⟨_, rfl⟩

theorem Path.length_le {a : α} {xs : List α} (h : Path link a xs) {number : α → Nat} {bound : Nat}
    (hinj : Function.Injective number) (hb : ∀ c d, link c = .next d → number d < bound) :
    xs.length ≤ bound + 1 := by
  have htail : ∀ b ∈ xs.tail, number b < bound := by
    clear hinj
    induction h with
    | last _ => simp
    | next hl hp ih =>
        intro b hmem
        obtain ⟨ys, rfl⟩ := hp.exists_cons
        rcases List.mem_cons.mp hmem with rfl | hmem'
        · exact hb _ _ hl
        · exact ih b hmem'
  have hnodup : (xs.tail.map number).Nodup := (h.nodup.sublist (List.tail_sublist xs)).map hinj
  have hsub : (xs.tail.map number).toFinset ⊆ Finset.range bound := by
    intro n hn
    obtain ⟨b, hmem, rfl⟩ := List.mem_map.mp (List.mem_toFinset.mp hn)
    exact Finset.mem_range.mpr (htail b hmem)
  have hcard := Finset.card_le_card hsub
  rw [List.toFinset_card_of_nodup hnodup, List.length_map, List.length_tail, Finset.card_range] at hcard
  omega

end MetalNes.LinkedPath
