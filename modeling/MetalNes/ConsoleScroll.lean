import MetalNes.Console

namespace MetalNes.ConsoleScroll

open Spans Console

/-- The pixels that so many bytes from an element on cover. -/
def pixelsFrom (start n : U32) : Span := ⟨(element start).toNat, n.toNat / 2⟩

def scrollReads (d : Display) : Span := pixelsFrom (scrollSource d) (scrollCopied d)

def scrollWrites (d : Display) : List Span :=
  [pixelsFrom 0 (scrollCopied d), pixelsFrom (scrollBottom d) (scrollCleared d)]

def pixels (d : Display) : Nat := d.resWidth.toNat * d.resHeight.toNat

/-- Only pixels are read and written, each line is moved up by eight, and the last eight
are cleared. -/
structure Scrolls (d : Display) : Prop where
  reads : (scrollReads d).InsideMod (2 ^ 31) (pixels d)
  writes : ∀ s ∈ scrollWrites d, s.InsideMod (2 ^ 31) (pixels d)
  moved : ∀ fb, ∀ x < d.resWidth.toNat, ∀ y < d.resHeight.toNat - 8,
    scroll d fb (pixel d x y) = fb (pixel d x (y + 8))
  cleared : ∀ fb, ∀ x < d.resWidth.toNat, ∀ y < d.resHeight.toNat, d.resHeight.toNat - 8 ≤ y →
    scroll d fb (pixel d x y) = 0

section Sizes

variable {d : Display} (hheight : 8 ≤ d.resHeight.toNat)

include hheight

theorem width_le : 8 * d.resWidth.toNat ≤ pixels d := by
  rw [pixels, Nat.mul_comm]
  exact Nat.mul_le_mul_left _ hheight

theorem width_lt : 16 * d.resWidth.toNat < 2 ^ 32 := by
  have hfits : 2 * pixels d < 2 ^ 32 := d.fits
  have hle := width_le hheight
  omega

theorem toNat_double : (2 * d.resWidth).toNat = 2 * d.resWidth.toNat := by
  have hlt := width_lt hheight
  rw [BitVec.toNat_mul]
  simp
  omega

theorem toNat_scrollSource : (scrollSource d).toNat = 16 * d.resWidth.toNat := by
  have hlt := width_lt hheight
  rw [scrollSource, BitVec.toNat_mul, toNat_double hheight]
  simp
  omega

theorem toNat_scrollCopied : (scrollCopied d).toNat = 2 * pixels d := by
  rw [scrollCopied, BitVec.toNat_mul, toNat_double hheight, Nat.mul_assoc, Nat.mod_eq_of_lt d.fits, pixels]

theorem toNat_scrollBottom : (scrollBottom d).toNat = 2 * (d.resWidth.toNat * (d.resHeight.toNat - 8)) := by
  have hsub : (d.resHeight - 8).toNat = d.resHeight.toNat - 8 := BitVec.toNat_sub_of_le hheight
  have hlines : d.resWidth.toNat * (d.resHeight.toNat - 8) ≤ d.resWidth.toNat * d.resHeight.toNat :=
    Nat.mul_le_mul_left _ (Nat.sub_le _ 8)
  have hlt := (Nat.mul_le_mul_left 2 hlines).trans_lt d.fits
  rw [scrollBottom, BitVec.toNat_mul, toNat_double hheight, hsub, Nat.mul_assoc, Nat.mod_eq_of_lt hlt]

end Sizes

theorem toNat_element (i : U32) : (element i).toNat = i.toNat % 2 ^ 31 := BitVec.toNat_setWidth 31 i

theorem pixelsFrom_inside_iff {d : Display} (start : U32) {n : U32} {k : Nat} (hn : n.toNat = 2 * k) (hk : 0 < k) :
    (pixelsFrom start n).InsideMod (2 ^ 31) (pixels d) ↔ start.toNat % 2 ^ 31 + k ≤ pixels d := by
  have hfits : 2 * pixels d < 2 ^ 32 := d.fits
  have hlength : n.toNat / 2 = k := by omega
  rw [Span.insideMod_iff (element start).isLt (by omega), Span.inside_iff, Span.stop, pixelsFrom, hlength,
    toNat_element]
  exact or_iff_right hk.ne'

/-- As many pixels are read as there are, so the copy has to start at the first one. -/
theorem reads_iff {d : Display} (hwidth : 8 ≤ d.resWidth.toNat) (hheight : 8 ≤ d.resHeight.toNat) :
    (scrollReads d).InsideMod (2 ^ 31) (pixels d) ↔ d.resWidth.toNat = 2 ^ 27 := by
  have hlt := width_lt hheight
  have hle := width_le hheight
  rw [scrollReads, pixelsFrom_inside_iff _ (toNat_scrollCopied hheight) (by omega), toNat_scrollSource hheight]
  omega

/-- Of a display so wide, the doubled offset of the last lines lies inside only where
there are no other lines. -/
theorem writes_iff {d : Display} (hwidth : d.resWidth.toNat = 2 ^ 27) (hheight : 8 ≤ d.resHeight.toNat) :
    (∀ s ∈ scrollWrites d, s.InsideMod (2 ^ 31) (pixels d)) ↔ d.resHeight.toNat = 8 := by
  have hfits : 2 * pixels d < 2 ^ 32 := d.fits
  have hpixels : pixels d = 2 ^ 27 * d.resHeight.toNat := by rw [pixels, hwidth]
  have hcleared : (scrollCleared d).toNat = 2 * 2 ^ 30 := by
    rw [show scrollCleared d = scrollSource d from rfl, toNat_scrollSource hheight, hwidth]
    rfl
  simp only [scrollWrites, List.forall_mem_cons]
  rw [pixelsFrom_inside_iff _ (toNat_scrollCopied hheight) (by omega),
    pixelsFrom_inside_iff _ hcleared (by decide), toNat_scrollBottom hheight, hwidth]
  simp
  omega

/-- For every display of at least eight lines and columns: a scroll that stays in the
framebuffer is one whose source wraps to its start, and that clears all of it. -/
theorem scrolls_iff {d : Display} (hwidth : 8 ≤ d.resWidth.toNat) (hheight : 8 ≤ d.resHeight.toNat) :
    Scrolls d ↔ d.resWidth.toNat = 2 ^ 27 ∧ d.resHeight.toNat = 8 := by
  constructor
  · intro h
    have hwide := (reads_iff hwidth hheight).mp h.reads
    exact ⟨hwide, (writes_iff hwide hheight).mp h.writes⟩
  · rintro ⟨hwide, hlow⟩
    refine ⟨(reads_iff hwidth hheight).mpr hwide, (writes_iff hwide hheight).mpr hlow, ?_, ?_⟩
    · intro fb x _ y hy
      rw [hlow] at hy
      exact absurd hy (Nat.not_lt_zero y)
    · intro fb x hx y hy _
      have hplace : (pixel d x y).toNat < 2 ^ 30 := by
        rw [pixel, hwide, BitVec.toNat_ofNat, Nat.mod_eq_of_lt (by omega)]
        omega
      have hbottom : element (scrollBottom d) = 0 := by
        apply BitVec.eq_of_toNat_eq
        rw [toNat_element, toNat_scrollBottom hheight, hlow, Nat.sub_self, Nat.mul_zero]
        rfl
      have hcleared : (scrollCleared d).toNat / 2 = 2 ^ 30 := by
        rw [show scrollCleared d = scrollSource d from rfl, toNat_scrollSource hheight, hwide]
        rfl
      rw [scroll, memset, hbottom, sub_zero, hcleared, if_pos hplace]

theorem widest_scrolls : Scrolls ⟨0x8000000, 8, by decide⟩ :=
  (scrolls_iff (by decide) (by decide)).mpr ⟨rfl, rfl⟩

def vga : Display := ⟨640, 480, by decide⟩

/-- The lines come from twice as far down, and the copy reads 10240 words behind the
framebuffer. -/
theorem vga_not_scrolls : scrollReads vga = ⟨10240, 307200⟩ ∧ pixels vga = 307200 ∧ ¬ Scrolls vga := by
  refine ⟨by decide, by decide, fun h => ?_⟩
  exact absurd (h.reads 307199 (by decide)) (by decide)

end MetalNes.ConsoleScroll
