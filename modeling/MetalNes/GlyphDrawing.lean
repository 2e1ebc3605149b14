import MetalNes.ConsoleScroll
import Mathlib.Data.List.ProdSigma

namespace MetalNes.GlyphDrawing

open LastWrite Console
open ConsoleScroll (vga)

def colour (lit : Bool) : U16 := if lit then 0xFFFF else 0

def CellInside (d : Display) (x y : U32) : Prop :=
  x.toNat + 8 ≤ d.resWidth.toNat ∧ y.toNat + 8 ≤ d.resHeight.toNat

instance (d : Display) (x y : U32) : Decidable (CellInside d x y) := inferInstanceAs (Decidable (_ ∧ _))

/-- What is to become of the framebuffer, and of the memory around it. -/
structure DrawsClipped (d : Display) (leftmost : U32) (fb : Memory) (x y : U32) (c : Fin 128) : Prop where
  clipped : ¬ CellInside d x y → consoleWriteAt d leftmost fb x y c = fb
  drawn : CellInside d x y → ∀ i < 8, ∀ j < 8, consoleWriteAt d leftmost fb x y c
    (pixel d (x.toNat + j) (y.toNat + i)) = colour ((fontRow c i).getLsbD j)
  frame : CellInside d x y → ∀ k, (∀ i < 8, ∀ j < 8, k ≠ pixel d (x.toNat + j) (y.toNat + i)) →
    consoleWriteAt d leftmost fb x y c k = fb k

def cellWrite (d : Display) (leftmost x y : U32) (c : Fin 128) (ij : Nat × Nat) : BitVec 31 × U16 :=
  (pixel d (x.toNat + ij.2) (y.toNat + ij.1), colour (glyphBit leftmost (fontRow c ij.1) ij.2))

/-- The words that a glyph is written to, and what is written there. -/
def glyphWrites (d : Display) (leftmost x y : U32) (c : Fin 128) : List (BitVec 31 × U16) :=
  cells.map (cellWrite d leftmost x y c)

/-- Each word already has the colour that is written to it last. -/
def AlreadyShown (d : Display) (leftmost : U32) (fb : Memory) (x y : U32) (c : Fin 128) : Prop :=
  ∀ k v, lastWrite k (glyphWrites d leftmost x y c) = some v → fb k = v

section Pixels

variable {d : Display}

theorem pixel_add (x y : U32) (i j : Nat) : element ((y + BitVec.ofNat 32 i) * d.resWidth + (x + BitVec.ofNat 32 j)) =
    pixel d (x.toNat + j) (y.toNat + i) := by
  have hofNat : ∀ k, (BitVec.ofNat 32 k).setWidth 31 = BitVec.ofNat 31 k :=
    fun k => BitVec.setWidth_ofNat_of_le (by decide) k
  simp only [element, pixel, BitVec.ofNat_add, BitVec.ofNat_mul, BitVec.ofNat_toNat]
  rw [BitVec.setWidth_add _ _ (by decide), BitVec.setWidth_mul _ _ (by decide), BitVec.setWidth_add _ _ (by decide),
    BitVec.setWidth_add _ _ (by decide), hofNat, hofNat]

theorem toNat_pixel {x y : Nat} (hx : x < d.resWidth.toNat) (hy : y < d.resHeight.toNat) :
    (pixel d x y).toNat = y * d.resWidth.toNat + x := by
  have hfits := d.fits
  have hrow : (y + 1) * d.resWidth.toNat ≤ d.resHeight.toNat * d.resWidth.toNat := Nat.mul_le_mul_right _ hy
  rw [Nat.succ_mul, Nat.mul_comm d.resHeight.toNat] at hrow
  rw [pixel, BitVec.toNat_ofNat, Nat.mod_eq_of_lt (by omega)]

theorem pixel_injective {x y x' y' : Nat} (hx : x < d.resWidth.toNat) (hy : y < d.resHeight.toNat)
    (hx' : x' < d.resWidth.toNat) (hy' : y' < d.resHeight.toNat) (h : pixel d x y = pixel d x' y') :
    x = x' ∧ y = y' := by
  have hnat := congrArg BitVec.toNat h
  rw [toNat_pixel hx hy, toNat_pixel hx' hy'] at hnat
  have hpos : 0 < d.resWidth.toNat := (Nat.zero_le x).trans_lt hx
  have hcolumn := congrArg (· % d.resWidth.toNat) hnat
  simp only [Nat.mul_add_mod_self_right, Nat.mod_eq_of_lt hx, Nat.mod_eq_of_lt hx'] at hcolumn
  subst hcolumn
  exact ⟨rfl, Nat.eq_of_mul_eq_mul_right hpos (Nat.add_right_cancel hnat)⟩

end Pixels

section Rows

theorem asBool_shifted (row : U8) {k : Nat} (hk : k < 8) :
    asBool (row.setWidth 32 &&& (1 : U32) <<< k) = row.getLsbD k := by
  have hshift : (1 : U32) <<< k = BitVec.twoPow 32 k := (BitVec.twoPow_eq 32 k).symm
  rw [hshift, asBool_and_twoPow _ (by omega), BitVec.getLsbD_setWidth]
  simp
  omega

theorem glyphBit_succ (leftmost : U32) (row : U8) {k : Nat} (hk : k < 8) :
    glyphBit leftmost row (k + 1) = row.getLsbD k := by
  rw [glyphBit, if_neg (Nat.succ_ne_zero k)]
  exact asBool_shifted row hk

theorem uniform_cases (row : U8) (h : ∀ k < 7, row.getLsbD k = row.getLsbD (k + 1)) : row = 0 ∨ row = 0xFF := by
  revert row
  decide +kernel

/-- Each column shows the bit of its left neighbour, and the first one that of the
undefined shift. -/
theorem row_right_iff (leftmost : U32) (row : U8) :
    (∀ j < 8, glyphBit leftmost row j = row.getLsbD j) ↔ row = 0 ∨ row = 0xFF ∧ asBool (0xFF &&& leftmost) := by
  constructor
  · intro h
    have hshifted : ∀ k < 7, row.getLsbD k = row.getLsbD (k + 1) := by
      intro k hk
      rw [← h (k + 1) (by omega), glyphBit_succ leftmost row (by omega)]
    rcases uniform_cases row hshifted with rfl | rfl
    · exact .inl rfl
    · exact .inr ⟨rfl, h 0 (by decide)⟩
  · rintro (rfl | ⟨rfl, hleft⟩) j hj
    · simp [glyphBit, asBool]
    · cases j with
      | zero => exact hleft
      | succ k =>
          have hall : ∀ k < 8, BitVec.getLsbD (0xFF : U8) k = true := by decide
          rw [glyphBit_succ leftmost _ (by omega), hall k (by omega), hall (k + 1) hj]

/-- The characters whose glyphs are blank, and the underscore, a full row under seven
blank ones. -/
theorem glyph_right_iff (leftmost : U32) (c : Fin 128) :
    (∀ i < 8, ∀ j < 8, glyphBit leftmost (fontRow c i) j = (fontRow c i).getLsbD j) ↔
      c ≤ 0x20 ∨ c = 0x7F ∨ c = 0x5F ∧ asBool (0xFF &&& leftmost) := by
  simp only [row_right_iff]
  cases asBool (0xFF &&& leftmost) <;> revert c <;> decide +kernel

end Rows

section Drawing

variable {d : Display} {leftmost : U32} {fb : Memory} {x y : U32} {c : Fin 128}

theorem drawCells_eq (d : Display) (leftmost : U32) (fb : Memory) (x y : U32) (c : Fin 128) :
    cells.foldl (drawCell d leftmost x y c) fb = (glyphWrites d leftmost x y c).foldl store fb := by
  rw [glyphWrites, List.foldl_map]
  congr
  funext fb ij
  rw [drawCell, setPixel, pixel_add, cellWrite, colour]
  cases glyphBit leftmost (fontRow c ij.1) ij.2 <;> rfl

theorem mem_cells {i j : Nat} : (i, j) ∈ cells ↔ i < 8 ∧ j < 8 := by
  rw [cells, List.mem_product, List.mem_range, List.mem_range]

theorem nodup_glyphWrites (hin : CellInside d x y) : ((glyphWrites d leftmost x y c).map Prod.fst).Nodup := by
  rw [glyphWrites, List.map_map]
  refine List.Nodup.map_on ?_ (List.nodup_range.product List.nodup_range)
  rintro ⟨i, j⟩ hij ⟨i', j'⟩ hij' he
  obtain ⟨hi, hj⟩ := mem_cells.mp hij
  obtain ⟨hi', hj'⟩ := mem_cells.mp hij'
  obtain ⟨hwidth, hheight⟩ := hin
  obtain ⟨hx, hy⟩ := pixel_injective (by omega) (by omega) (by omega) (by omega) he
  exact Prod.ext (Nat.add_left_cancel hy) (Nat.add_left_cancel hx)

theorem drawn_pixel (hin : CellInside d x y) {i j : Nat} (hi : i < 8) (hj : j < 8) :
    (glyphWrites d leftmost x y c).foldl store fb (pixel d (x.toNat + j) (y.toNat + i)) =
      colour (glyphBit leftmost (fontRow c i) j) := by
  have hmem := List.mem_map_of_mem (f := cellWrite d leftmost x y c) (mem_cells.mpr ⟨hi, hj⟩)
  rw [foldl_store, lastWrite_of_mem (nodup_glyphWrites hin) hmem]
  rfl

theorem undrawn {k : BitVec 31} (hk : ∀ i < 8, ∀ j < 8, k ≠ pixel d (x.toNat + j) (y.toNat + i)) :
    (glyphWrites d leftmost x y c).foldl store fb k = fb k := by
  have hnone : lastWrite k (glyphWrites d leftmost x y c) = none := by
    refine lastWrite_eq_none fun w hw he => ?_
    obtain ⟨⟨i, j⟩, hij, rfl⟩ := List.mem_map.mp hw
    obtain ⟨hi, hj⟩ := mem_cells.mp hij
    exact hk i hi j hj he.symm
  rw [foldl_store, hnone]
  rfl

/-- The test of console_write_at, whose sums wrap. -/
def TurnedAway (d : Display) (x y : U32) : Prop := d.resWidth < x + 8 ∨ d.resHeight < y + 8

theorem consoleWriteAt_turnedAway (h : TurnedAway d x y) : consoleWriteAt d leftmost fb x y c = fb := by
  rw [consoleWriteAt]
  rcases h with hx | hy
  · rw [if_pos hx]
  · rw [if_pos hy]
    split <;> rfl

theorem consoleWriteAt_draws (h : ¬ TurnedAway d x y) :
    consoleWriteAt d leftmost fb x y c = (glyphWrites d leftmost x y c).foldl store fb := by
  obtain ⟨hx, hy⟩ := not_or.mp h
  rw [consoleWriteAt, if_neg hx, if_neg hy, drawCells_eq]

theorem TurnedAway.not_inside (h : TurnedAway d x y) : ¬ CellInside d x y := by
  rintro ⟨hwidth, hheight⟩
  have hw := d.resWidth.isLt
  have hh := d.resHeight.isLt
  rcases h with hx | hy
  · have hlt : d.resWidth.toNat < (x + 8).toNat := hx
    rw [BitVec.toNat_add] at hlt
    simp at hlt
    omega
  · have hlt : d.resHeight.toNat < (y + 8).toNat := hy
    rw [BitVec.toNat_add] at hlt
    simp at hlt
    omega

theorem colour_injective {a b : Bool} (h : colour a = colour b) : a = b := by
  revert a b
  decide

/-- One memory: the cell is drawn as it should be where the test turns it away, where the glyph
looks the same one column to the right, and where a cell that the test misses is there already. -/
theorem drawsClipped_memory_iff (d : Display) (leftmost : U32) (fb : Memory) (x y : U32) (c : Fin 128) :
    DrawsClipped d leftmost fb x y c ↔ TurnedAway d x y ∨
      (CellInside d x y ∧ (c ≤ 0x20 ∨ c = 0x7F ∨ c = 0x5F ∧ asBool (0xFF &&& leftmost))) ∨
      (¬ CellInside d x y ∧ AlreadyShown d leftmost fb x y c) := by
  by_cases haway : TurnedAway d x y
  · have hout := haway.not_inside
    refine iff_of_true ⟨fun _ => consoleWriteAt_turnedAway haway, fun hin => absurd hin hout, fun hin => ?_⟩
      (.inl haway)
    exact absurd hin hout
  · have hdraws : consoleWriteAt d leftmost fb x y c = (glyphWrites d leftmost x y c).foldl store fb :=
      consoleWriteAt_draws haway
    by_cases hin : CellInside d x y
    · rw [← glyph_right_iff]
      constructor
      · intro h
        refine .inr (.inl ⟨hin, fun i hi j hj => colour_injective ?_⟩)
        refine Eq.trans ?_ (h.drawn hin i hi j hj)
        rw [hdraws, drawn_pixel hin hi hj]
      · rintro (h | ⟨-, h⟩ | ⟨h, -⟩)
        · exact absurd h haway
        · refine ⟨fun hout => absurd hin hout, fun _ i hi j hj => ?_, fun _ k hk => ?_⟩
          · rw [hdraws, drawn_pixel hin hi hj, h i hi j hj]
          · rw [hdraws, undrawn hk]
        · exact absurd hin h
    · have hshown : AlreadyShown d leftmost fb x y c ↔ consoleWriteAt d leftmost fb x y c = fb := by
        rw [hdraws, foldl_store_eq_self_iff, AlreadyShown]
      rw [hshown]
      constructor
      · exact fun h => .inr (.inr ⟨hin, h.clipped hin⟩)
      · rintro (h | ⟨h, -⟩ | ⟨-, h⟩)
        · exact absurd h haway
        · exact absurd h hin
        · exact ⟨fun _ => h, fun h => absurd h hin, fun h => absurd h hin⟩

/-- No memory but one of black and white words has a cell already. -/
theorem not_alreadyShown {grey : U16} (hgrey : ∀ lit, grey ≠ colour lit) :
    ¬ AlreadyShown d leftmost (fun _ => grey) x y c := by
  intro h
  have hlast : ∃ pre, glyphWrites d leftmost x y c = pre ++ [cellWrite d leftmost x y c (7, 7)] :=
    ⟨(cells.dropLast).map (cellWrite d leftmost x y c), rfl⟩
  obtain ⟨pre, hwrites⟩ := hlast
  have hvalue := h (pixel d (x.toNat + 7) (y.toNat + 7)) (colour (glyphBit leftmost (fontRow c 7) 7)) (by
    rw [hwrites]
    exact lastWrite_middle (List.forall_mem_nil _))
  exact hgrey _ hvalue

/-- For every display, place and character: whatever is in memory, the cell is drawn as it should
be exactly where the test turns it away and where it lies inside and the glyph looks the same one
column to the right. -/
theorem drawsClipped_iff (d : Display) (leftmost x y : U32) (c : Fin 128) :
    (∀ fb, DrawsClipped d leftmost fb x y c) ↔ TurnedAway d x y ∨
      (CellInside d x y ∧ (c ≤ 0x20 ∨ c = 0x7F ∨ c = 0x5F ∧ asBool (0xFF &&& leftmost))) := by
  constructor
  · intro h
    rcases (drawsClipped_memory_iff d leftmost (fun _ => 0x1234) x y c).mp (h _) with haway | hin | ⟨-, hshown⟩
    · exact .inl haway
    · exact .inr hin
    · exact absurd hshown (not_alreadyShown (by decide))
  · intro h fb
    exact (drawsClipped_memory_iff d leftmost fb x y c).mpr (h.imp_right .inl)

end Drawing

/-- On ARM, a shift by a register that holds -1 gives 0. -/
theorem space_drawn : ∀ fb, DrawsClipped vga 0 fb 8 16 0x20 :=
  (drawsClipped_iff vga 0 8 16 0x20).mpr (.inr ⟨by decide, .inl (by decide)⟩)

/-- The third pixel in the first row of an A is not lit. -/
theorem letter_not_drawn : CellInside vga 0 0 ∧ (fontRow 0x41 0).getLsbD 2 = true ∧
    consoleWriteAt vga 0 (fun _ => 0) 0 0 0x41 (pixel vga 2 0) = 0 ∧
    ¬ DrawsClipped vga 0 (fun _ => 0) 0 0 0x41 := by
  have hin : CellInside vga 0 0 := by decide
  have hunlit : consoleWriteAt vga 0 (fun _ => 0) 0 0 0x41 (pixel vga 2 0) = 0 := by decide +kernel
  refine ⟨hin, by decide, hunlit, fun h => ?_⟩
  have hlit := h.drawn hin 0 (by decide) 2 (by decide)
  exact absurd (hunlit.symm.trans hlit) (by decide)

end MetalNes.GlyphDrawing
