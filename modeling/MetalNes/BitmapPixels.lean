import MetalNes.Bmp

namespace MetalNes.BitmapPixels

open Blocks Patches Spans Bmp

/-- The bytes of a row in the file, a multiple of 4. -/
def stride (w : Nat) : Nat := (2 * w + 3) / 4 * 4

/-- An uncompressed bitmap of 16 bits per pixel, its rows stored bottom-up. -/
structure WellFormed (buffer : Buffer) (w h : Nat) : Prop where
  type : buffer 0 = 0x42 ∧ buffer 1 = 0x4D
  headerSize : 40 ≤ (dibHeader buffer).headerSize.toNat
  bitsPerPixel : (dibHeader buffer).bitsPerPixel = 16
  compression : (dibHeader buffer).compression = 0 ∨ (dibHeader buffer).compression = 3
  width : (dibHeader buffer).imgWidth.toInt = w
  height : (dibHeader buffer).imgHeight.toInt = h
  width_pos : 0 < w
  height_pos : 0 < h
  imgSize : (dibHeader buffer).imgSize.toNat = stride w * h ∨
    (dibHeader buffer).imgSize = 0 ∧ (dibHeader buffer).compression = 0
  inFile : 54 ≤ (parrayoffset buffer).toNat ∧
    (parrayoffset buffer).toNat + stride w * h ≤ (longAt buffer 2).toNat

/-- The 16 bits so many bytes into the pixel data of the file. -/
def dataAt (buffer : Buffer) (i : Nat) : U16 := halfAt buffer (parrayoffset buffer + BitVec.ofNat 32 i)

/-- Column x of display row y, where the last row is stored first. -/
def storedPixel (buffer : Buffer) (w h x y : Nat) : U16 := dataAt buffer ((h - 1 - y) * stride w + 2 * x)

def pixelAt (bytes : List U8) (i : Nat) : Option U16 := do
  let lo ← bytes[2 * i]?
  let hi ← bytes[2 * i + 1]?
  return wordOf lo hi

structure Shows (buffer : Buffer) (w h : Nat) (img : RawBmp) (bytes : List U8) : Prop where
  width : img.width.toNat = w
  height : img.height.toNat = h
  pixels : img.pixels = some bytes
  pixel : ∀ x < w, ∀ y < h, pixelAt bytes (y * w + x) = some (storedPixel buffer w h x y)

def ShowsImage (malloc : U32 → Option (List U8)) (buffer : Buffer) (w h : Nat) : Prop :=
  ∃ img bytes, bmpTo16bitarray malloc (some buffer) = .ok (some img) ∧ Shows buffer w h img bytes

def Granted (malloc : U32 → Option (List U8)) : Prop := ∀ n, ∃ data, malloc n = some data ∧ data.length = n.toNat

variable {buffer : Buffer} {w h : Nat}

namespace WellFormed

variable (hwf : WellFormed buffer w h)

include hwf

theorem accepted : acceptedHeader buffer = some (dibHeader buffer) := by
  have hsize : (dibHeader buffer).headerSize ≠ 0 := by
    intro hzero
    have hle := hwf.headerSize
    rw [hzero] at hle
    exact absurd hle (by decide)
  rw [acceptedHeader, if_neg (not_not_intro hwf.type)]
  simp only [if_neg hsize, if_neg (not_not_intro hwf.bitsPerPixel), if_pos hwf.compression]

theorem toNat_width : (dibHeader buffer).imgWidth.toNat = w := by
  have hint := hwf.width
  rw [BitVec.toInt_eq_toNat_cond] at hint
  have hlt := (dibHeader buffer).imgWidth.isLt
  split at hint <;> omega

theorem toNat_height : (dibHeader buffer).imgHeight.toNat = h := by
  have hint := hwf.height
  rw [BitVec.toInt_eq_toNat_cond] at hint
  have hlt := (dibHeader buffer).imgHeight.isLt
  split at hint <;> omega

theorem rows_eq : rows (dibHeader buffer) = h := by
  rw [rows, hwf.height, Int.toNat_natCast]

theorem rowBytes_eq : rowBytes (dibHeader buffer) = 2 * w := by
  have hint := hwf.width
  have hnat := hwf.toNat_width
  rw [BitVec.toInt_eq_toNat_cond] at hint
  have hlt := (dibHeader buffer).imgWidth.isLt
  rw [rowBytes, BitVec.toNat_mul, hnat]
  split at hint
  · simp
    omega
  · omega

theorem rows_fit_iff : rows (dibHeader buffer) * rowBytes (dibHeader buffer) ≤ (dibHeader buffer).imgSize.toNat ↔
    (dibHeader buffer).imgSize ≠ 0 := by
  rw [hwf.rows_eq, hwf.rowBytes_eq]
  constructor
  · intro hle hzero
    have hpos := Nat.mul_pos hwf.height_pos (Nat.mul_pos Nat.two_pos hwf.width_pos)
    rw [hzero] at hle
    exact absurd hle hpos.not_ge
  · intro hne
    rcases hwf.imgSize with hsize | ⟨hzero, -⟩
    · rw [hsize, Nat.mul_comm (stride w)]
      exact Nat.mul_le_mul_left h (by rw [stride]; omega)
    · exact absurd hzero hne

end WellFormed

theorem pixelAt_eq {bytes : List U8} {i : Nat}
    (h : ∀ n < 2 * i + 2, bytes[n]? = some (buffer (parrayoffset buffer + BitVec.ofNat 32 n))) :
    pixelAt bytes i = some (dataAt buffer (2 * i)) := by
  have hnext : parrayoffset buffer + BitVec.ofNat 32 (2 * i) + 1 =
      parrayoffset buffer + BitVec.ofNat 32 (2 * i + 1) := by
    rw [BitVec.ofNat_add, BitVec.add_assoc]
    rfl
  rw [pixelAt, h (2 * i) (by omega), h (2 * i + 1) (by omega), dataAt, halfAt, hnext]
  rfl

/-- For every well-formed bitmap: the rows are copied as they are stored, with neither
their order nor their padding changed, so that the image shows only what lies in the
data as in the image. -/
theorem showsImage_iff {malloc : U32 → Option (List U8)} (hm : Granted malloc) (hwf : WellFormed buffer w h) :
    ShowsImage malloc buffer w h ↔ (dibHeader buffer).imgSize ≠ 0 ∧
      ∀ x < w, ∀ y < h, dataAt buffer (2 * (y * w + x)) = storedPixel buffer w h x y := by
  obtain ⟨rawbmp, hrawbmp, -⟩ := hm 16
  obtain ⟨data, hmalloc, hdata⟩ := hm (dibHeader buffer).imgSize
  have hrun := bmpTo16bitarray_eq hrawbmp hmalloc hdata hwf.accepted
  simp only [hwf.rows_fit_iff] at hrun
  by_cases hsize : (dibHeader buffer).imgSize = 0
  · rw [if_neg (not_not_intro hsize)] at hrun
    refine iff_of_false ?_ fun h => h.1 hsize
    rintro ⟨img, bytes, hreturns, -⟩
    cases hrun.symm.trans hreturns
  · rw [if_pos hsize] at hrun
    have hfits := hdata.symm ▸ hwf.rows_fit_iff.mpr hsize
    have hpixel : ∀ x < w, ∀ y < h, pixelAt (write ((rowCopies (parrayoffset buffer) (dibHeader buffer)).map
        fun c => c.patch buffer) data) (y * w + x) = some (dataAt buffer (2 * (y * w + x))) := by
      intro x hx y hy
      refine pixelAt_eq fun n hn => getElem?_copied hfits (hdata.trans_lt (dibHeader buffer).imgSize.isLt) ?_
      have hrow : (y + 1) * w ≤ h * w := Nat.mul_le_mul_right w hy
      rw [Nat.succ_mul] at hrow
      rw [hwf.rows_eq, hwf.rowBytes_eq, Nat.mul_left_comm]
      omega
    constructor
    · rintro ⟨img, bytes, hreturns, hshows⟩
      cases hrun.symm.trans hreturns
      cases hshows.pixels
      exact ⟨hsize, fun x hx y hy => Option.some.inj ((hpixel x hx y hy).symm.trans (hshows.pixel x hx y hy))⟩
    · rintro ⟨-, hsame⟩
      refine ⟨_, _, hrun, hwf.toNat_width, hwf.toNat_height, rfl, fun x hx y hy => ?_⟩
      rw [hpixel x hx y hy, hsame x hx y hy]

def zeroed (n : U32) : Option (List U8) := some (List.replicate n.toNat 0)

theorem zeroed_granted : Granted zeroed := fun _ => ⟨_, rfl, List.length_replicate⟩

/-- One row of three pixels, and its padding. -/
def single : Buffer := bitmap 3 1 8 [0x1F, 0x7C, 0xE0, 0x03, 0x01, 0x00, 0, 0]

theorem single_shown : ShowsImage zeroed single 3 1 := by
  have hwf : WellFormed single 3 1 :=
    ⟨by decide +kernel, by decide +kernel, by decide +kernel, by decide +kernel, by decide +kernel,
      by decide +kernel, by decide, by decide, by decide +kernel, by decide +kernel⟩
  exact (showsImage_iff zeroed_granted hwf).mpr (by decide +kernel)

/-- The pixel 2 above the pixel 1, in rows of which half is padding. -/
def double : Buffer := bitmap 1 2 8 [0x01, 0x00, 0xFF, 0xFF, 0x02, 0x00, 0xFF, 0xFF]

/-- The lower pixel comes first, and then its padding. -/
theorem double_not_shown : WellFormed double 1 2 ∧
    bmpTo16bitarray zeroed (some double) = .ok (some ⟨1, 2, some [0x01, 0x00, 0xFF, 0xFF, 0, 0, 0, 0]⟩) ∧
    storedPixel double 1 2 0 0 = 2 ∧ storedPixel double 1 2 0 1 = 1 ∧ ¬ ShowsImage zeroed double 1 2 := by
  have hwf : WellFormed double 1 2 :=
    ⟨by decide +kernel, by decide +kernel, by decide +kernel, by decide +kernel, by decide +kernel,
      by decide +kernel, by decide, by decide, by decide +kernel, by decide +kernel⟩
  have hrun : bmpTo16bitarray zeroed (some double) =
      .ok (some ⟨1, 2, some [0x01, 0x00, 0xFF, 0xFF, 0, 0, 0, 0]⟩) := by decide +kernel
  have htop : storedPixel double 1 2 0 0 = 2 := by decide +kernel
  refine ⟨hwf, hrun, htop, by decide +kernel, ?_⟩
  rintro ⟨img, bytes, hreturns, hshows⟩
  cases hrun.symm.trans hreturns
  cases hshows.pixels
  have hpixel := hshows.pixel 0 (by decide) 0 (by decide)
  rw [htop] at hpixel
  exact absurd hpixel (by decide)

end MetalNes.BitmapPixels
