import Mathlib.Data.BitVec

namespace MetalNes

abbrev U8 := BitVec 8
abbrev U16 := BitVec 16
abbrev U32 := BitVec 32

/-- The conversion C makes where an integer is passed as a bool. -/
def asBool {w : Nat} (x : BitVec w) : Bool := x != 0

/-- The conversion of a bool to an integer. -/
def ofBool (b : Bool) : U16 := if b then 1 else 0

def loByte (x : U16) : U8 := x.setWidth 8

def hiByte (x : U16) : U8 := (x >>> 8).setWidth 8

def wordOf (lo hi : U8) : U16 := (hi.setWidth 16 <<< 8) ||| lo.setWidth 16

theorem toNat_loByte (x : U16) : (loByte x).toNat = x.toNat % 256 := by
  simp [loByte]

theorem toNat_hiByte (x : U16) : (hiByte x).toNat = x.toNat / 256 := by
  have h := x.isLt
  simp only [hiByte, BitVec.toNat_setWidth, BitVec.toNat_ushiftRight, Nat.shiftRight_eq_div_pow]
  omega

theorem toNat_wordOf (lo hi : U8) : (wordOf lo hi).toNat = hi.toNat * 256 + lo.toNat := by
  have hl := lo.isLt
  have hh := hi.isLt
  have hor : hi.toNat <<< 8 ||| lo.toNat = hi.toNat <<< 8 + lo.toNat :=
    (Nat.shiftLeft_add_eq_or_of_lt hl hi.toNat).symm
  have hshift : hi.toNat <<< 8 = hi.toNat * 256 := Nat.shiftLeft_eq _ _
  simp only [wordOf, BitVec.toNat_or, BitVec.toNat_shiftLeft, BitVec.toNat_setWidth]
  rw [Nat.mod_eq_of_lt (by omega : hi.toNat < 2 ^ 16), Nat.mod_eq_of_lt (by omega : lo.toNat < 2 ^ 16),
    Nat.mod_eq_of_lt (by omega), hor, hshift]

@[simp] theorem loByte_wordOf (lo hi : U8) : loByte (wordOf lo hi) = lo := by
  apply BitVec.eq_of_toNat_eq
  rw [toNat_loByte, toNat_wordOf]
  omega

@[simp] theorem hiByte_wordOf (lo hi : U8) : hiByte (wordOf lo hi) = hi := by
  apply BitVec.eq_of_toNat_eq
  rw [toNat_hiByte, toNat_wordOf]
  omega

@[simp] theorem wordOf_bytes (x : U16) : wordOf (loByte x) (hiByte x) = x := by
  apply BitVec.eq_of_toNat_eq
  rw [toNat_wordOf, toNat_loByte, toNat_hiByte]
  omega

theorem asBool_and_twoPow {w : Nat} (x : BitVec w) {i : Nat} (h : i < w) :
    asBool (x &&& BitVec.twoPow w i) = x.getLsbD i := by
  have hne : BitVec.twoPow w i ≠ 0 := by
    intro he
    have hb := congrArg (fun y => y.getLsbD i) he
    simp [h] at hb
  rw [asBool, BitVec.and_twoPow]
  cases hx : x.getLsbD i <;> simp_all

theorem asBool_bit7 (x : U8) : asBool (x &&& 0x80) = x.getLsbD 7 :=
  asBool_and_twoPow x (by decide : 7 < 8)

theorem asBool_bit6 (x : U8) : asBool (x &&& 0x40) = x.getLsbD 6 :=
  asBool_and_twoPow x (by decide : 6 < 8)

theorem asBool_bit0 (x : U8) : asBool (x &&& 0x01) = x.getLsbD 0 :=
  asBool_and_twoPow x (by decide : 0 < 8)

theorem asBool_word_bit7 (x : U16) : asBool (x &&& 0x80) = (loByte x).getLsbD 7 :=
  (asBool_and_twoPow x (by decide : 7 < 16)).trans (by simp [loByte])

theorem setWidth_and_255 (x : U8) : x.setWidth 16 &&& (0x00FF : U16) = x.setWidth 16 := by
  have hm : (0x00FF : U16).toNat = 2 ^ 8 - 1 := rfl
  have hx := x.isLt
  apply BitVec.eq_of_toNat_eq
  rw [BitVec.toNat_and, hm, Nat.and_two_pow_sub_one_eq_mod, BitVec.toNat_setWidth]
  omega

theorem and_page (x : U16) : x &&& (0xFF00 : U16) = (hiByte x).setWidth 16 <<< 8 := by
  have hhi : ∀ hi : U8, (hi.setWidth 16 <<< 8) &&& (0xFF00 : U16) = hi.setWidth 16 <<< 8 := by
    decide +kernel
  have hlo : ∀ lo : U8, lo.setWidth 16 &&& (0xFF00 : U16) = 0 := by decide +kernel
  have hsplit : wordOf (loByte x) (hiByte x) &&& (0xFF00 : U16) = (hiByte x).setWidth 16 <<< 8 := by
    rw [wordOf, BitVec.and_or_distrib_right, hhi, hlo]
    exact BitVec.or_zero
  rwa [wordOf_bytes] at hsplit

theorem page_injective {p q : U8} (h : p.setWidth 16 <<< 8 = q.setWidth 16 <<< 8) : p = q := by
  have hback : ∀ hi : U8, hiByte (hi.setWidth 16 <<< 8) = hi := by decide +kernel
  rw [← hback p, h, hback q]

theorem and_page_ne_iff (x : U16) (hi : U8) :
    x &&& (0xFF00 : U16) ≠ hi.setWidth 16 <<< 8 ↔ hiByte x ≠ hi := by
  rw [and_page, ne_eq, ne_eq, not_iff_not]
  exact ⟨page_injective, fun h => by rw [h]⟩

theorem and_page_pos_iff (x : U16) : x &&& (0xFF00 : U16) > 0 ↔ 256 ≤ x.toNat := by
  have hhi := toNat_hiByte x
  have hlt := (hiByte x).isLt
  rw [and_page]
  bv_omega

theorem word_and_eq_zero (x : U16) : (x &&& 0xFF == 0x0) = (loByte x == 0x0) := by
  have hm : (0xFF : U16).toNat = 2 ^ 8 - 1 := rfl
  have hx : (x &&& 0xFF).toNat = (loByte x).toNat := by
    rw [BitVec.toNat_and, hm, Nat.and_two_pow_sub_one_eq_mod, toNat_loByte]
  rw [Bool.eq_iff_iff, beq_iff_eq, beq_iff_eq, ← BitVec.toNat_inj, ← BitVec.toNat_inj, hx]
  rfl

end MetalNes
