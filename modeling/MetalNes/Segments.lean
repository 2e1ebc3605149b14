import Mathlib.Order.Nat
import Mathlib.Tactic.Common

namespace MetalNes.Segments

variable {α : Type}

/-- The nodes that one link visits on the way from p to q, none of them the end mark. -/
def Path (stop : α) (link : α → α) : α → List α → α → Prop
  | p, [], q => p = q
  | p, a :: rest, q => p = a ∧ p ≠ stop ∧ Path stop link (link p) rest q

/-- A piece of a list with two links: b is in front of its first node, l is its last one. -/
def Segment (stop : α) (next prev : α → α) : α → α → List α → α → α → Prop
  | b, p, [], l, q => p = q ∧ b = l
  | b, p, a :: rest, l, q => p = a ∧ p ≠ stop ∧ prev p = b ∧ Segment stop next prev p (next p) rest l q

section Path

variable {stop : α} {link link' : α → α} {p q m : α} {xs ys : List α}

theorem path_append : Path stop link p (xs ++ ys) q ↔ ∃ m, Path stop link p xs m ∧ Path stop link m ys q := by
  induction xs generalizing p with
  | nil =>
      constructor
      · exact fun h => ⟨p, rfl, h⟩
      · rintro ⟨m, rfl, h⟩
        exact h
  | cons a rest ih =>
      constructor
      · rintro ⟨ha, hne, h⟩
        obtain ⟨m, hrest, hm⟩ := ih.mp h
        exact ⟨m, ⟨ha, hne, hrest⟩, hm⟩
      · rintro ⟨m, ⟨ha, hne, hrest⟩, hm⟩
        exact ⟨ha, hne, ih.mpr ⟨m, hrest, hm⟩⟩

theorem Path.unique (hx : Path stop link p xs stop) (hy : Path stop link p ys stop) : xs = ys := by
  induction xs generalizing p ys with
  | nil =>
      cases ys with
      | nil => rfl
      | cons a rest => exact absurd hx hy.2.1
  | cons a rest ih =>
      cases ys with
      | nil => exact absurd hy hx.2.1
      | cons c tail =>
          obtain ⟨rfl, -, hrest⟩ := hx
          obtain ⟨rfl, -, htail⟩ := hy
          rw [ih hrest htail]

theorem Path.mem_of_reached (hx : Path stop link p xs m) (hm : m ≠ stop) (hy : Path stop link p ys stop) :
    m ∈ ys := by
  induction xs generalizing p ys with
  | nil =>
      cases ys with
      | nil => exact absurd (hx.symm.trans hy) hm
      | cons a rest => exact List.mem_cons.mpr (.inl (hx.symm.trans hy.1))
  | cons a rest ih =>
      cases ys with
      | nil => exact absurd hy hx.2.1
      | cons c tail => exact List.mem_cons_of_mem c (ih hx.2.2 hy.2.2)

theorem Path.ne_stop (h : Path stop link p xs q) : stop ∉ xs := by
  induction xs generalizing p with
  | nil => exact List.not_mem_nil
  | cons a rest ih =>
      obtain ⟨rfl, hne, hrest⟩ := h
      intro hmem
      rcases List.mem_cons.mp hmem with hstop | hmem
      · exact hne hstop.symm
      · exact ih hrest hmem

theorem Path.congr (h : Path stop link p xs q) (hsame : ∀ a ∈ xs, link' a = link a) :
    Path stop link' p xs q := by
  induction xs generalizing p with
  | nil => exact h
  | cons a rest ih =>
      obtain ⟨rfl, hne, hrest⟩ := h
      refine ⟨rfl, hne, ?_⟩
      rw [hsame p List.mem_cons_self]
      exact ih hrest fun c hc => hsame c (List.mem_cons_of_mem p hc)

end Path

section Segment

variable {stop : α} {next prev next' prev' : α → α} {b p l q a : α} {xs ys : List α}

theorem segment_append : Segment stop next prev b p (xs ++ ys) l q ↔
    ∃ k m, Segment stop next prev b p xs k m ∧ Segment stop next prev k m ys l q := by
  induction xs generalizing b p with
  | nil =>
      constructor
      · exact fun h => ⟨b, p, ⟨rfl, rfl⟩, h⟩
      · rintro ⟨k, m, ⟨rfl, rfl⟩, h⟩
        exact h
  | cons a rest ih =>
      constructor
      · rintro ⟨ha, hne, hb, h⟩
        obtain ⟨k, m, hrest, hm⟩ := ih.mp h
        exact ⟨k, m, ⟨ha, hne, hb, hrest⟩, hm⟩
      · rintro ⟨k, m, ⟨ha, hne, hb, hrest⟩, hm⟩
        exact ⟨ha, hne, hb, ih.mpr ⟨k, m, hrest, hm⟩⟩

/-- Both links are right where a walk along each visits the same nodes, in opposite orders. -/
theorem segment_iff_paths : Segment stop next prev b p xs l q ↔
    Path stop next p xs q ∧ Path stop prev l xs.reverse b := by
  induction xs generalizing b p with
  | nil =>
      constructor
      · rintro ⟨hp, hb⟩
        exact ⟨hp, hb.symm⟩
      · rintro ⟨hp, hl⟩
        exact ⟨hp, hl.symm⟩
  | cons a rest ih =>
      rw [List.reverse_cons, path_append]
      constructor
      · rintro ⟨ha, hne, hb, h⟩
        obtain ⟨hforth, hback⟩ := ih.mp h
        exact ⟨⟨ha, hne, hforth⟩, p, hback, ha, hne, hb⟩
      · rintro ⟨⟨rfl, hne, hforth⟩, m, hback, rfl, -, hb⟩
        exact ⟨rfl, hne, hb, ih.mpr ⟨hforth, hback⟩⟩

theorem Segment.congr (h : Segment stop next prev b p xs l q) (hnext : ∀ a ∈ xs, next' a = next a)
    (hprev : ∀ a ∈ xs, prev' a = prev a) : Segment stop next' prev' b p xs l q := by
  obtain ⟨hforth, hback⟩ := segment_iff_paths.mp h
  exact segment_iff_paths.mpr
    ⟨hforth.congr hnext, hback.congr fun a ha => hprev a (List.mem_reverse.mp ha)⟩

theorem Segment.prev_next (h : Segment stop next prev b p xs l stop) (ha : a ∈ xs) (hne : next a ≠ stop) :
    prev (next a) = a := by
  induction xs generalizing b p with
  | nil => cases ha
  | cons c rest ih =>
      obtain ⟨rfl, -, -, hrest⟩ := h
      rcases List.mem_cons.mp ha with rfl | ha
      · cases rest with
        | nil => exact absurd hrest.1 hne
        | cons d tail => exact hrest.2.2.1
      · exact ih hrest ha

end Segment

section Middle

variable {a b c : α} {xs ys : List α}

theorem mem_inserted : a ∈ xs ++ b :: ys ↔ a = b ∨ a ∈ xs ++ ys := by
  rw [List.mem_append, List.mem_cons, List.mem_append]
  exact or_left_comm

theorem mem_inserted_behind : a ∈ xs ++ b :: c :: ys ↔ a = c ∨ a ∈ xs ++ b :: ys := by
  rw [List.append_cons, mem_inserted, ← List.append_cons]

end Middle

end MetalNes.Segments
