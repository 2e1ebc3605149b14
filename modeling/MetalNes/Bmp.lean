import MetalNes.Blocks
import MetalNes.Patches
import MetalNes.Spans
import Mathlib.Tactic.Ring

namespace MetalNes.Bmp

open Blocks Patches Spans

/-- The bytes of memory, by their distance from the start of the buffer. -/
abbrev Buffer := U32 → U8

def halfAt (buffer : Buffer) (i : U32) : U16 := wordOf (buffer i) (buffer (i + 1))

def longAt (buffer : Buffer) (i : U32) : U32 := halfAt buffer (i + 2) ++ halfAt buffer i

/-- The fields of BMP_DIB_HEADER that decide what is returned. -/
structure DibHeader where
  headerSize : U32
  imgWidth : U32
  imgHeight : U32
  bitsPerPixel : U16
  compression : U32
  imgSize : U32
  deriving DecidableEq, Repr

/-- A RAW_BMP. Its bpp is never set. -/
structure RawBmp where
  width : U32
  height : U32
  pixels : Option (List U8)
  deriving DecidableEq, Repr

def parrayoffset (buffer : Buffer) : U32 := longAt buffer 10

def dibHeader (buffer : Buffer) : DibHeader where
  headerSize := longAt buffer 14
  imgWidth := longAt buffer 18
  imgHeight := longAt buffer 22
  bitsPerPixel := halfAt buffer 28
  compression := longAt buffer 30
  imgSize := longAt buffer 34

def acceptedHeader (buffer : Buffer) : Option DibHeader :=
  if ¬ (buffer 0 = 0x42 ∧ buffer 1 = 0x4D) then none
  else
    let dib := dibHeader buffer
    if dib.headerSize = 0 then none
    else if dib.bitsPerPixel ≠ 16 then none
    else if dib.compression = 0 ∨ dib.compression = 3 then some dib
    else none

/-- A memcpy, from a place behind the buffer's start to a place in the pixels. -/
structure RowCopy where
  bufptr : U32
  srcptr : U32
  length : U32
  deriving DecidableEq, Repr

def rowCopy (offset : U32) (dib : DibHeader) (i : U32) : RowCopy where
  bufptr := 2 * (dib.imgHeight * dib.imgWidth) - 2 * (i * dib.imgWidth)
  srcptr := offset + 2 * (dib.imgHeight * dib.imgWidth) - 2 * (i * dib.imgWidth)
  length := dib.imgWidth * 2

/-- The passes of the loop, which counts down from the height. -/
def rows (dib : DibHeader) : Nat := dib.imgHeight.toInt.toNat

/-- The copy that is made after k others. -/
def passCopy (offset : U32) (dib : DibHeader) (k : Nat) : RowCopy :=
  rowCopy offset dib (dib.imgHeight - BitVec.ofNat 32 k)

def rowCopies (offset : U32) (dib : DibHeader) : List RowCopy := (List.range (rows dib)).map (passCopy offset dib)

def RowCopy.span (c : RowCopy) : Span := ⟨c.bufptr.toNat, c.length.toNat⟩

def RowCopy.bytes (c : RowCopy) (buffer : Buffer) : List U8 :=
  (List.range c.length.toNat).map fun j => buffer (c.srcptr + BitVec.ofNat 32 j)

def RowCopy.patch (c : RowCopy) (buffer : Buffer) : Patch U8 := ⟨c.bufptr.toNat, c.bytes buffer⟩

instance (m size : Nat) (s : Span) : Decidable (s.InsideMod m size) :=
  inferInstanceAs (Decidable (∀ i < s.length, (s.offset + i) % m < size))

def copyRow (buffer : Buffer) (pixels : Option (List U8)) (c : RowCopy) : Except Fault (Option (List U8)) :=
  match pixels with
  | none => if c.length = 0 then .ok none else .error .nullPointer
  | some bytes =>
      if c.span.InsideMod (2 ^ 32) bytes.length then
        .ok (some ((c.patch buffer).apply bytes))
      else .error .outOfBounds

/-- A refused RAW_BMP is written through all the same. -/
def bmpTo16bitarray (malloc : U32 → Option (List U8)) (buffer : Option Buffer) :
    Except Fault (Option RawBmp) :=
  match buffer with
  | none => .ok none
  | some buffer =>
      match acceptedHeader buffer with
      | none => .ok none
      | some dib =>
          match malloc 16 with
          | none => .error .nullPointer
          | some _ => do
              let pixels ← (rowCopies (parrayoffset buffer) dib).foldlM (copyRow buffer) (malloc dib.imgSize)
              .ok (some ⟨dib.imgWidth, dib.imgHeight, pixels⟩)

/-- Every byte that the loop writes is one of those allocated for the pixels. -/
def WritesInside (buffer : Buffer) : Prop :=
  ∀ dib ∈ acceptedHeader buffer, ∀ c ∈ rowCopies (parrayoffset buffer) dib,
    ∀ j < c.length.toNat, (c.bufptr + BitVec.ofNat 32 j).toNat < dib.imgSize.toNat

/-- The bytes of a row in the image: the padding of the file is not thought of. -/
def rowBytes (dib : DibHeader) : Nat := (dib.imgWidth * 2).toNat

section Rows

variable (offset : U32) (dib : DibHeader)

theorem passCopy_bufptr (k : Nat) : (passCopy offset dib k).bufptr = BitVec.ofNat 32 (k * rowBytes dib) := by
  have hplace : 2 * (dib.imgHeight * dib.imgWidth) - 2 * ((dib.imgHeight - BitVec.ofNat 32 k) * dib.imgWidth) =
      BitVec.ofNat 32 k * (dib.imgWidth * 2) := by ring
  rw [passCopy, rowCopy, hplace, BitVec.ofNat_mul, rowBytes, BitVec.ofNat_toNat, BitVec.setWidth_eq]

theorem passCopy_srcptr (k : Nat) :
    (passCopy offset dib k).srcptr = offset + BitVec.ofNat 32 (k * rowBytes dib) := by
  rw [← passCopy_bufptr offset]
  simp only [passCopy, rowCopy]
  ring

theorem RowCopy.inside_iff (c : RowCopy) (size : Nat) :
    (∀ j < c.length.toNat, (c.bufptr + BitVec.ofNat 32 j).toNat < size) ↔ c.span.InsideMod (2 ^ 32) size := by
  simp only [BitVec.toNat_add, BitVec.toNat_ofNat, Nat.add_mod_mod]
  rfl

theorem passCopy_inside_iff (k size : Nat) : (passCopy offset dib k).span.InsideMod (2 ^ 32) size ↔
    (⟨k * rowBytes dib, rowBytes dib⟩ : Span).InsideMod (2 ^ 32) size := by
  simp only [Span.InsideMod, RowCopy.span, passCopy_bufptr, BitVec.toNat_ofNat, Nat.mod_add_mod]
  rfl

/-- The rows that are written lie one behind the other from the start of the pixels, so
that their last byte decides. -/
theorem rowCopies_inside_iff {size : Nat} (hsize : size < 2 ^ 32) :
    (∀ c ∈ rowCopies offset dib, c.span.InsideMod (2 ^ 32) size) ↔ rows dib * rowBytes dib ≤ size := by
  simp only [rowCopies, List.forall_mem_map, List.mem_range, passCopy_inside_iff]
  rw [rows_insideMod_iff, Span.insideMod_iff (Nat.two_pow_pos 32) hsize, Span.inside_iff, Span.stop, Nat.zero_add]
  constructor
  · rintro (hzero | hle)
    · exact hzero.le.trans (Nat.zero_le _)
    · exact hle
  · exact .inr

end Rows

theorem writesInside_iff {buffer : Buffer} {dib : DibHeader} (h : acceptedHeader buffer = some dib) :
    WritesInside buffer ↔ rows dib * rowBytes dib ≤ dib.imgSize.toNat := by
  rw [← rowCopies_inside_iff (parrayoffset buffer) dib dib.imgSize.isLt]
  simp only [WritesInside, h, Option.mem_some_iff, forall_eq', RowCopy.inside_iff]

def longBytes (v : U32) : List U8 := (List.range 4).map fun i => (v >>> (8 * i)).setWidth 8

def bitmap (width height imgSize : U32) (pixels : List U8) : Buffer :=
  let bytes := [0x42, 0x4D] ++ longBytes (54 + imgSize) ++ longBytes 0 ++ longBytes 54 ++ longBytes 40 ++
    longBytes width ++ longBytes height ++ [1, 0, 16, 0] ++ longBytes 0 ++ longBytes imgSize ++
    List.replicate 16 0 ++ pixels
  fun i => bytes.getD i.toNat 0

theorem single_writesInside : WritesInside (bitmap 1 1 4 [0x1F, 0x7C, 0, 0]) := by
  have haccepted : acceptedHeader (bitmap 1 1 4 [0x1F, 0x7C, 0, 0]) = some ⟨40, 1, 1, 16, 0, 4⟩ := by
    decide +kernel
  exact (writesInside_iff haccepted).mpr (by decide)

/-- An uncompressed image may leave its size 0. -/
theorem unsized_not_writesInside : acceptedHeader (bitmap 1 1 0 [0x1F, 0x7C, 0, 0]) = some ⟨40, 1, 1, 16, 0, 0⟩ ∧
    ¬ WritesInside (bitmap 1 1 0 [0x1F, 0x7C, 0, 0]) := by
  have haccepted : acceptedHeader (bitmap 1 1 0 [0x1F, 0x7C, 0, 0]) = some ⟨40, 1, 1, 16, 0, 0⟩ := by
    decide +kernel
  refine ⟨haccepted, fun h => ?_⟩
  have hinside := h _ haccepted _ (List.mem_map_of_mem (List.mem_range.mpr (by decide : 0 < 1)))
  exact absurd (hinside 0 (by decide)) (by decide)

section Copying

theorem RowCopy.stop_patch (c : RowCopy) (buffer : Buffer) : (c.patch buffer).stop = c.span.stop := by
  rw [Patch.stop, patch, bytes, List.length_map, List.length_range]
  rfl

theorem RowCopy.length_apply {c : RowCopy} {bytes : List U8}
    (h : c.span.InsideMod (2 ^ 32) bytes.length) (hsize : bytes.length < 2 ^ 32) (buffer : Buffer) :
    ((c.patch buffer).apply bytes).length = bytes.length := by
  rcases Span.inside_iff.mp ((Span.insideMod_iff c.bufptr.isLt hsize).mp h) with hzero | hle
  · have hnone : c.bytes buffer = [] := by
      rw [RowCopy.bytes, show c.length.toNat = 0 from hzero, List.range_zero, List.map_nil]
    have hstop : (c.patch buffer).stop = (c.patch buffer).offset := by
      rw [c.stop_patch, Span.stop, hzero]
      rfl
    rw [Patch.apply, hstop, show (c.patch buffer).values = [] from hnone, List.append_nil, List.take_append_drop]
  · exact Patch.length_apply ((c.stop_patch buffer).trans_le hle)

theorem copyRows_eq (buffer : Buffer) (cs : List RowCopy) {bytes : List U8} (hsize : bytes.length < 2 ^ 32) :
    cs.foldlM (copyRow buffer) (some bytes) = if ∀ c ∈ cs, c.span.InsideMod (2 ^ 32) bytes.length then
      .ok (some (write (cs.map fun c => c.patch buffer) bytes)) else .error .outOfBounds := by
  induction cs generalizing bytes with
  | nil => rfl
  | cons c cs ih =>
      rw [List.foldlM_cons, List.map_cons, write, List.foldl_cons, ← write]
      by_cases hc : c.span.InsideMod (2 ^ 32) bytes.length
      · have hlen := c.length_apply hc hsize buffer
        have hstep : copyRow buffer (some bytes) c = .ok (some ((c.patch buffer).apply bytes)) := if_pos hc
        have hrest := ih (hlen.trans_lt hsize)
        rw [hlen] at hrest
        rw [hstep]
        simp only [List.forall_mem_cons, hc, true_and]
        exact hrest
      · have hstep : copyRow buffer (some bytes) c = .error .outOfBounds := if_neg hc
        rw [hstep]
        exact (if_neg fun h => hc (h c List.mem_cons_self)).symm

variable {buffer : Buffer} {offset : U32} {dib : DibHeader}

theorem getElem?_passCopy_bytes (k : Nat) {j : Nat} (hj : j < rowBytes dib) :
    ((passCopy offset dib k).bytes buffer)[j]? =
      some (buffer (offset + BitVec.ofNat 32 (k * rowBytes dib + j))) := by
  have hlength : (passCopy offset dib k).length.toNat = rowBytes dib := rfl
  rw [RowCopy.bytes, hlength, List.getElem?_map, List.getElem?_range hj, Option.map_some, passCopy_srcptr,
    BitVec.add_assoc, BitVec.ofNat_add]

variable {data : List U8} (hfits : rows dib * rowBytes dib ≤ data.length)

include hfits

theorem row_le {k : Nat} (hk : k < rows dib) : k * rowBytes dib + rowBytes dib ≤ data.length := by
  have hrow : (k + 1) * rowBytes dib ≤ rows dib * rowBytes dib := Nat.mul_le_mul_right _ hk
  rw [Nat.succ_mul] at hrow
  exact hrow.trans hfits

variable (hsize : data.length < 2 ^ 32)

include hsize

theorem passCopy_patch {k : Nat} (hk : k < rows dib) (hpos : 0 < rowBytes dib) :
    ((passCopy offset dib k).patch buffer).offset = k * rowBytes dib ∧
      ((passCopy offset dib k).patch buffer).stop = k * rowBytes dib + rowBytes dib := by
  have hle := row_le hfits hk
  have hplace : (passCopy offset dib k).bufptr.toNat = k * rowBytes dib := by
    rw [passCopy_bufptr, BitVec.toNat_ofNat, Nat.mod_eq_of_lt (by omega)]
  refine ⟨hplace, ?_⟩
  rw [RowCopy.stop_patch, Span.stop, RowCopy.span, hplace]
  rfl

/-- The pixels hold the data as it lies in the file, byte by byte. -/
theorem getElem?_copied {i : Nat} (hi : i < rows dib * rowBytes dib) :
    (write ((rowCopies offset dib).map fun c => c.patch buffer) data)[i]? =
      some (buffer (offset + BitVec.ofNat 32 i)) := by
  have hpos : 0 < rowBytes dib := Nat.pos_of_ne_zero fun hzero => by simp [hzero] at hi
  have hrow : i / rowBytes dib < rows dib := Nat.div_lt_of_lt_mul (hi.trans_eq (Nat.mul_comm _ _))
  have hfit : ∀ p ∈ (rowCopies offset dib).map fun c => c.patch buffer, p.stop ≤ data.length := by
    simp only [rowCopies, List.forall_mem_map, List.mem_range]
    intro k hk
    rw [(passCopy_patch hfits hsize hk hpos).2]
    exact row_le hfits hk
  have horder : ((rowCopies offset dib).map fun c => c.patch buffer).IsChain Patch.Before := by
    refine List.Pairwise.isChain ?_
    rw [rowCopies, List.map_map, List.pairwise_map]
    refine List.pairwise_lt_range.imp_of_mem fun {k k'} hk hk' hlt => ?_
    rw [List.mem_range] at hk hk'
    have hle : (k + 1) * rowBytes dib ≤ k' * rowBytes dib := Nat.mul_le_mul_right _ hlt
    rw [Nat.succ_mul] at hle
    exact ((passCopy_patch hfits hsize hk hpos).2.trans_le hle).trans_eq
      (passCopy_patch hfits hsize hk' hpos).1.symm
  have hmem := List.mem_map_of_mem (f := fun c => RowCopy.patch c buffer)
    (List.mem_map_of_mem (f := passCopy offset dib) (List.mem_range.mpr hrow))
  have hvalue : ((passCopy offset dib (i / rowBytes dib)).bytes buffer)[i % rowBytes dib]? =
      some (buffer (offset + BitVec.ofNat 32 (i / rowBytes dib * rowBytes dib + i % rowBytes dib))) :=
    getElem?_passCopy_bytes _ (Nat.mod_lt i hpos)
  have hread := getElem?_write hfit horder hmem (List.getElem?_eq_some_iff.mp hvalue).1
  rw [(passCopy_patch hfits hsize hrow hpos).1, Nat.div_add_mod'] at hread
  rw [Nat.div_add_mod'] at hvalue
  exact hread.trans hvalue

end Copying

theorem bmpTo16bitarray_eq {malloc : U32 → Option (List U8)} {buffer : Buffer} {dib : DibHeader}
    {rawbmp data : List U8} (hrawbmp : malloc 16 = some rawbmp) (hmalloc : malloc dib.imgSize = some data)
    (hdata : data.length = dib.imgSize.toNat) (h : acceptedHeader buffer = some dib) :
    bmpTo16bitarray malloc (some buffer) = if rows dib * rowBytes dib ≤ dib.imgSize.toNat then
      .ok (some ⟨dib.imgWidth, dib.imgHeight,
        some (write ((rowCopies (parrayoffset buffer) dib).map fun c => c.patch buffer) data)⟩)
      else .error .outOfBounds := by
  have hcopied := copyRows_eq buffer (rowCopies (parrayoffset buffer) dib) (hdata.trans_lt dib.imgSize.isLt)
  simp only [hdata, rowCopies_inside_iff _ _ dib.imgSize.isLt] at hcopied
  simp only [bmpTo16bitarray, h, hrawbmp, hmalloc, hcopied]
  split <;> rfl

end MetalNes.Bmp
