import Mathlib.Order.Nat
import Mathlib.Tactic.Common

namespace MetalNes.Spans

/-- A run of bytes of a block, by the offset of its first byte. -/
structure Span where
  offset : Nat
  length : Nat
  deriving DecidableEq, Repr

def Span.stop (s : Span) : Nat := s.offset + s.length

/-- Every byte of the run is one of the first so many of the block. -/
def Span.Inside (size : Nat) (s : Span) : Prop := ∀ i < s.length, s.offset + i < size

/-- The same where the address of each byte is taken modulo m. -/
def Span.InsideMod (m size : Nat) (s : Span) : Prop := ∀ i < s.length, (s.offset + i) % m < size

variable {s : Span} {size m : Nat}

theorem Span.inside_of_length_eq_zero (h : s.length = 0) : s.Inside size :=
  fun i hi => absurd hi (h ▸ Nat.not_lt_zero i)

theorem Span.inside_of_stop_le (h : s.stop ≤ size) : s.Inside size :=
  fun _ hi => (Nat.add_lt_add_left hi s.offset).trans_le h

theorem Span.inside_iff : s.Inside size ↔ s.length = 0 ∨ s.stop ≤ size := by
  constructor
  · intro h
    rcases Nat.eq_zero_or_pos s.length with hzero | hpos
    · exact .inl hzero
    · have hlast := h (s.length - 1) (Nat.sub_lt hpos Nat.one_pos)
      rw [Span.stop]
      omega
  · rintro (hzero | hle)
    · exact inside_of_length_eq_zero hzero
    · exact inside_of_stop_le hle

/-- A run that leaves the block comes to the byte behind it, and no wrap hides that byte. -/
theorem Span.insideMod_iff (hoffset : s.offset < m) (hsize : size < m) :
    s.InsideMod m size ↔ s.Inside size := by
  constructor
  · intro h
    rw [inside_iff, Span.stop]
    by_contra hout
    rw [not_or, not_le] at hout
    rcases Nat.lt_or_ge s.offset size with hlt | hge
    · have hbehind := h (size - s.offset) (by omega)
      rw [Nat.add_sub_cancel' hlt.le, Nat.mod_eq_of_lt hsize] at hbehind
      exact lt_irrefl _ hbehind
    · have hfirst := h 0 (Nat.pos_of_ne_zero hout.1)
      rw [Nat.add_zero, Nat.mod_eq_of_lt hoffset] at hfirst
      exact absurd hfirst hge.not_gt
  · intro h i hi
    rw [Nat.mod_eq_of_lt ((h i hi).trans hsize)]
    exact h i hi

theorem rows_insideMod_iff {rows width : Nat} :
    (∀ k < rows, (⟨k * width, width⟩ : Span).InsideMod m size) ↔
      (⟨0, rows * width⟩ : Span).InsideMod m size := by
  constructor
  · intro h i hi
    have hpos : 0 < width := Nat.pos_of_ne_zero fun hzero => by simp [hzero] at hi
    have hrow : i / width < rows := Nat.div_lt_of_lt_mul (hi.trans_eq (Nat.mul_comm rows width))
    have hplace := h (i / width) hrow (i % width) (Nat.mod_lt i hpos)
    rw [Nat.zero_add]
    rwa [Nat.div_add_mod'] at hplace
  · intro h k hk j hj
    have hrow : (k + 1) * width ≤ rows * width := Nat.mul_le_mul_right width hk
    rw [Nat.succ_mul] at hrow
    have hplace := h (k * width + j) ((Nat.add_lt_add_left hj _).trans_le hrow)
    rwa [Nat.zero_add] at hplace

end MetalNes.Spans
