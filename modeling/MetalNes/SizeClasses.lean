import MetalNes.Liballoc

namespace MetalNes.Liballoc

theorem toNat_one_shiftLeft {shift : Nat} (h : shift < 32) : ((1 : U32) <<< shift).toNat = 2 ^ shift := by
  have hlt : 2 ^ shift < 2 ^ 32 := Nat.pow_lt_pow_right (by decide) h
  have hone : (1 : U32).toNat = 1 := rfl
  rw [BitVec.toNat_shiftLeft, Nat.shiftLeft_eq, hone, Nat.one_mul, Nat.mod_eq_of_lt hlt]

theorem getexpLoop_spec (size : U32) {passes shift : Nat} (h : shift + passes = MAXEXP) :
    shift ≤ getexpLoop size passes shift ∧ getexpLoop size passes shift ≤ MAXEXP ∧
      size.toNat < 2 ^ getexpLoop size passes shift ∧
      (getexpLoop size passes shift = shift ∨ 2 ^ (getexpLoop size passes shift - 1) ≤ size.toNat) := by
  induction passes generalizing shift with
  | zero =>
      obtain rfl : shift = 32 := h
      exact ⟨Nat.le_refl _, Nat.le_refl _, size.isLt, Or.inl rfl⟩
  | succ passes ih =>
      have hshift : shift < 32 := by
        unfold MAXEXP at h
        omega
      have hpow := toNat_one_shiftLeft hshift
      rw [getexpLoop]
      by_cases hbreak : (1 : U32) <<< shift > size
      · rw [if_pos hbreak]
        refine ⟨Nat.le_refl _, by unfold MAXEXP; omega, ?_, Or.inl rfl⟩
        rw [← hpow]
        exact BitVec.lt_def.mp hbreak
      · rw [if_neg hbreak]
        obtain ⟨hle, hmax, hlt, hge⟩ := ih (show shift + 1 + passes = MAXEXP by omega)
        refine ⟨by omega, hmax, hlt, Or.inr ?_⟩
        rcases hge with heq | hge
        · rw [heq, Nat.add_sub_cancel, ← hpow]
          exact BitVec.le_def.mp (BitVec.not_lt.mp hbreak)
        · exact hge

theorem getexp_small {size : U32} (h : size.toNat < 256) : getexp size = -1 :=
  if_pos (BitVec.lt_def.mpr h)

/-- What the comment of getexp says, from the least size on that has an exponent. -/
theorem getexp_spec {size : U32} (h : 256 ≤ size.toNat) :
    ∃ n : Nat, getexp size = n ∧ 8 ≤ n ∧ n < 32 ∧ 2 ^ n ≤ size.toNat ∧ size.toNat < 2 ^ (n + 1) := by
  obtain ⟨hle, hmax, hlt, hge⟩ := getexpLoop_spec size (rfl : 8 + 24 = MAXEXP)
  have hnot : ¬ size < (1 : U32) <<< MINEXP := fun hsmall => absurd (BitVec.lt_def.mp hsmall) (Nat.not_lt.mpr h)
  have hne : getexpLoop size 24 8 ≠ 8 := by
    intro heq
    rw [heq] at hlt
    omega
  have hexp : getexp size = (getexpLoop size 24 8 - 1 : Nat) := by
    rw [getexp, if_neg hnot]
    show (getexpLoop size 24 8 : Int) - 1 = _
    omega
  unfold MAXEXP at hmax
  refine ⟨getexpLoop size 24 8 - 1, hexp, by omega, by omega, hge.resolve_left hne, ?_⟩
  rwa [Nat.sub_add_cancel (by omega)]

theorem getexp_nonneg_iff {size : U32} : 0 ≤ getexp size ↔ 256 ≤ size.toNat := by
  constructor
  · intro hnonneg
    by_contra hsmall
    rw [getexp_small (by omega)] at hnonneg
    omega
  · intro hle
    obtain ⟨n, hn, -⟩ := getexp_spec hle
    omega

theorem bucketOf_range (size : U32) : 8 ≤ bucketOf size ∧ bucketOf size < 32 := by
  unfold bucketOf MINEXP
  by_cases hle : 256 ≤ size.toNat
  · obtain ⟨n, hn, h8, h32, -⟩ := getexp_spec hle
    rw [hn]
    split <;> omega
  · rw [getexp_small (by omega), if_pos (by decide)]
    decide

end MetalNes.Liballoc
