import MetalNes.GlyphDrawing

namespace MetalNes.ConsoleStrings

open LastWrite Console GlyphDrawing
open ConsoleScroll (vga)

def consoleWritestr (d : Display) (leftmost : U32) (fb : Memory) (x y : U32) : List (Fin 128) → Memory
  | [] => fb
  | c :: str => consoleWritestr d leftmost (consoleWriteAt d leftmost fb x y c) (x + 8) y str

/-- Whether there is room for a character of a string. -/
def Fits (d : Display) (x y : U32) (k : Nat) : Prop :=
  x.toNat + 8 * k + 8 ≤ d.resWidth.toNat ∧ y.toNat + 8 ≤ d.resHeight.toNat

instance (d : Display) (x y : U32) (k : Nat) : Decidable (Fits d x y k) := inferInstanceAs (Decidable (_ ∧ _))

/-- The characters that fit stand side by side, and everything else is left as it is. -/
structure Drawn (d : Display) (leftmost : U32) (fb fb' : Memory) (x y : U32) (str : List (Fin 128)) : Prop where
  drawn : ∀ k c, str[k]? = some c → Fits d x y k → ∀ i < 8, ∀ j < 8,
    fb' (pixel d (x.toNat + 8 * k + j) (y.toNat + i)) = colour (glyphBit leftmost (fontRow c i) j)
  frame : ∀ w, (∀ k < str.length, Fits d x y k → ∀ i < 8, ∀ j < 8,
    w ≠ pixel d (x.toNat + 8 * k + j) (y.toNat + i)) → fb' w = fb w

section Strings

variable {d : Display} {leftmost : U32} {fb : Memory} {x y : U32} {c : Fin 128} {str : List (Fin 128)}

theorem toNat_next (hx : x.toNat + 8 < 2 ^ 32) : (x + 8).toNat = x.toNat + 8 := by
  rw [BitVec.toNat_add]
  exact Nat.mod_eq_of_lt hx

theorem fits_next (hx : x.toNat + 8 < 2 ^ 32) (k : Nat) : Fits d (x + 8) y k ↔ Fits d x y (k + 1) := by
  rw [Fits, Fits, toNat_next hx, Nat.mul_succ, Nat.add_right_comm x.toNat 8, Nat.add_assoc x.toNat (8 * k)]

theorem column_next (hx : x.toNat + 8 < 2 ^ 32) (k j : Nat) :
    (x + 8).toNat + 8 * k + j = x.toNat + 8 * (k + 1) + j := by
  rw [toNat_next hx]
  omega

/-- Where neither sum wraps, the test of console_write_at is the one for the display. -/
theorem turnedAway_of_not_inside (hx : x.toNat + 8 < 2 ^ 32) (hy : y.toNat + 8 < 2 ^ 32) (h : ¬ CellInside d x y) :
    TurnedAway d x y := by
  rw [CellInside, not_and_or, Nat.not_le, Nat.not_le] at h
  rw [TurnedAway, BitVec.lt_def, BitVec.lt_def, toNat_next hx, toNat_next hy]
  exact h

theorem not_turnedAway_of_inside (h : CellInside d x y) : ¬ TurnedAway d x y := fun haway => haway.not_inside h

theorem consoleWritestr_frame (hx : x.toNat + 8 * str.length < 2 ^ 32) (hy : y.toNat + 8 < 2 ^ 32) {w : BitVec 31}
    (hw : ∀ k < str.length, Fits d x y k → ∀ i < 8, ∀ j < 8, w ≠ pixel d (x.toNat + 8 * k + j) (y.toNat + i)) :
    consoleWritestr d leftmost fb x y str w = fb w := by
  induction str generalizing x fb with
  | nil => rfl
  | cons c str ih =>
      rw [List.length_cons, Nat.mul_succ] at hx
      have hfirst : x.toNat + 8 < 2 ^ 32 := by omega
      rw [consoleWritestr, ih]
      · by_cases hin : CellInside d x y
        · rw [consoleWriteAt_draws (not_turnedAway_of_inside hin), undrawn]
          exact hw 0 (Nat.succ_pos _) hin
        · rw [consoleWriteAt_turnedAway (turnedAway_of_not_inside hfirst hy hin)]
      · rw [toNat_next hfirst]
        omega
      · intro k hk hfits i hi j hj
        rw [column_next hfirst]
        exact hw (k + 1) (Nat.succ_lt_succ hk) ((fits_next hfirst k).mp hfits) i hi j hj

theorem consoleWritestr_drawn (hx : x.toNat + 8 * str.length < 2 ^ 32) (hy : y.toNat + 8 < 2 ^ 32) {k i j : Nat}
    (hk : str[k]? = some c) (hfits : Fits d x y k) (hi : i < 8) (hj : j < 8) :
    consoleWritestr d leftmost fb x y str (pixel d (x.toNat + 8 * k + j) (y.toNat + i)) =
      colour (glyphBit leftmost (fontRow c i) j) := by
  induction str generalizing x fb k with
  | nil => cases hk
  | cons c' str ih =>
      rw [List.length_cons, Nat.mul_succ] at hx
      have hfirst : x.toNat + 8 < 2 ^ 32 := by omega
      have hnext : (x + 8).toNat + 8 * str.length < 2 ^ 32 := by
        rw [toNat_next hfirst]
        omega
      rw [consoleWritestr]
      cases k with
      | zero =>
          obtain rfl : c' = c := Option.some.inj hk
          -- the characters behind it are drawn to its right
          rw [consoleWritestr_frame hnext hy, consoleWriteAt_draws (not_turnedAway_of_inside hfits)]
          · exact drawn_pixel hfits hi hj
          · intro k _ hbehind i' hi' j' hj' heq
            obtain ⟨hwidth, hheight⟩ := (fits_next hfirst k).mp hbehind
            rw [column_next hfirst] at heq
            obtain ⟨hcolumn, -⟩ := pixel_injective (by omega) (by omega) (by omega) (by omega) heq
            omega
      | succ k =>
          rw [← column_next hfirst]
          exact ih hnext hk ((fits_next hfirst k).mpr hfits)

end Strings

/-- For every display, memory, place and string whose end does not wrap. -/
theorem consoleWritestr_draws (d : Display) (leftmost : U32) (fb : Memory) {x y : U32} {str : List (Fin 128)}
    (hx : x.toNat + 8 * str.length < 2 ^ 32) (hy : y.toNat + 8 < 2 ^ 32) :
    Drawn d leftmost fb (consoleWritestr d leftmost fb x y str) x y str :=
  ⟨fun _ _ hk hfits _ hi _ hj => consoleWritestr_drawn hx hy hk hfits hi hj,
    fun _ hw => consoleWritestr_frame hx hy hw⟩

/-- The second letter does not fit. -/
theorem consoleWritestr_draws_vga :
    Drawn vga 0 (fun _ => 7) (consoleWritestr vga 0 (fun _ => 7) 632 16 [72, 105]) 632 16 [72, 105] :=
  consoleWritestr_draws vga 0 _ (by decide) (by decide)

end MetalNes.ConsoleStrings
