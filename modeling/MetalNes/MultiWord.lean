import Mathlib.Data.BitVec
import Mathlib.Data.Nat.Digits.Defs
import Mathlib.Tactic.Linarith

namespace MetalNes.MultiWord

section Value

variable {w : Nat}

/-- The number of a list of words, the lowest first. -/
def value (ws : List (BitVec w)) : Nat := Nat.ofDigits (2 ^ w) (ws.map BitVec.toNat)

theorem value_nil : value ([] : List (BitVec w)) = 0 := rfl

theorem value_cons (x : BitVec w) (ws : List (BitVec w)) : value (x :: ws) = x.toNat + 2 ^ w * value ws := by
  rw [value, List.map_cons, Nat.ofDigits_cons]
  rfl

theorem value_append (xs ys : List (BitVec w)) :
    value (xs ++ ys) = value xs + (2 ^ w) ^ xs.length * value ys := by
  rw [value, List.map_append, Nat.ofDigits_append, List.length_map]
  rfl

theorem value_concat (ws : List (BitVec w)) (x : BitVec w) :
    value (ws ++ [x]) = value ws + (2 ^ w) ^ ws.length * x.toNat := by
  rw [value_append, value_cons, value_nil, Nat.mul_zero, Nat.add_zero]

theorem value_lt (ws : List (BitVec w)) : value ws < (2 ^ w) ^ ws.length := by
  induction ws with
  | nil => exact Nat.one_pos
  | cons x ws ih =>
      have hx := x.isLt
      have hle : 2 ^ w * (value ws + 1) ≤ 2 ^ w * (2 ^ w) ^ ws.length := Nat.mul_le_mul_left _ ih
      rw [value_cons, List.length_cons, Nat.pow_succ']
      rw [Nat.mul_add, Nat.mul_one] at hle
      omega

theorem value_injective {xs ys : List (BitVec w)} (hlen : xs.length = ys.length)
    (h : value xs = value ys) : xs = ys := by
  induction xs generalizing ys with
  | nil => exact (List.eq_nil_of_length_eq_zero hlen.symm).symm
  | cons x xs ih =>
      cases ys with
      | nil => cases hlen
      | cons y ys =>
          rw [value_cons, value_cons] at h
          have hmod := congrArg (· % 2 ^ w) h
          simp only [Nat.add_mul_mod_self_left, Nat.mod_eq_of_lt x.isLt, Nat.mod_eq_of_lt y.isLt] at hmod
          have hxy : x = y := BitVec.eq_of_toNat_eq hmod
          rw [hxy] at h ⊢
          have hrest := Nat.eq_of_mul_eq_mul_left (Nat.two_pow_pos w) (Nat.add_left_cancel h)
          rw [ih (Nat.succ.inj hlen) hrest]

end Value

theorem two_dvd_base {w : Nat} (hw : 0 < w) : 2 ∣ 2 ^ w := dvd_pow_self 2 hw.ne'

section Chain

variable {α β : Type}

/-- The outputs of a chain of steps of which each hands a carry to the next. -/
def outputs (f : Bool → α → β) (g : Bool → α → Bool) : Bool → List α → List β
  | _, [] => []
  | c, x :: xs => f c x :: outputs f g (g c x) xs

def carryOut (g : Bool → α → Bool) : Bool → List α → Bool
  | c, [] => c
  | c, x :: xs => carryOut g (g c x) xs

theorem length_outputs (f : Bool → α → β) (g : Bool → α → Bool) (c : Bool) (xs : List α) :
    (outputs f g c xs).length = xs.length := by
  induction xs generalizing c with
  | nil => rfl
  | cons x xs ih => exact congrArg Nat.succ (ih _)

theorem value_outputs_lt {w : Nat} (f : Bool → α → BitVec w) (g : Bool → α → Bool) (c : Bool) (xs : List α) :
    value (outputs f g c xs) < (2 ^ w) ^ xs.length := by
  have hlt := value_lt (outputs f g c xs)
  rwa [length_outputs] at hlt

theorem outputs_map {γ : Type} (f : Bool → α → β) (g : Bool → α → Bool) (h : γ → α) (c : Bool)
    (xs : List γ) : outputs f g c (xs.map h) = outputs (fun c x => f c (h x)) (fun c x => g c (h x)) c xs := by
  induction xs generalizing c with
  | nil => rfl
  | cons x xs ih => exact congrArg (f c (h x) :: ·) (ih _)

theorem carryOut_map {γ : Type} (g : Bool → α → Bool) (h : γ → α) (c : Bool) (xs : List γ) :
    carryOut g c (xs.map h) = carryOut (fun c x => g c (h x)) c xs := by
  induction xs generalizing c with
  | nil => rfl
  | cons x xs ih => exact ih _

/-- A chain that drops every carry. -/
def lost (_ : Bool) (_ : α) : Bool := false

/-- Dropping the carries goes unnoticed only where there are none. -/
theorem outputs_lost_iff {f : Bool → α → β} {g : α → Bool} (hf : ∀ x, f false x ≠ f true x) (c : Bool)
    (xs : List α) :
    outputs f lost c xs = outputs f (fun _ => g) c xs ∧ carryOut lost c xs = carryOut (fun _ => g) c xs ↔
      ∀ x ∈ xs, g x = false := by
  induction xs generalizing c with
  | nil => exact iff_of_true ⟨rfl, rfl⟩ fun x hx => absurd hx List.not_mem_nil
  | cons x xs ih =>
      rw [List.forall_mem_cons, ← ih false, outputs, outputs, carryOut, carryOut, List.cons_inj_right]
      cases hx : g x with
      | false => exact (and_iff_right rfl).symm
      | true =>
          refine iff_of_false ?_ fun h => Bool.noConfusion h.1
          rintro ⟨houtputs, hcarry⟩
          cases xs with
          | nil => cases hcarry
          | cons y ys => exact hf y (List.cons.inj houtputs).1

end Chain

section Subtraction

variable {w : Nat}

def difference (b : Bool) (p : BitVec w × BitVec w) : BitVec w := p.1 - p.2 - BitVec.ofNat w b.toNat

def borrow (b : Bool) (p : BitVec w × BitVec w) : Bool := decide (p.1.toNat < p.2.toNat + b.toNat)

theorem difference_add (hw : 0 < w) (b : Bool) (p : BitVec w × BitVec w) :
    (difference b p).toNat + p.2.toNat + b.toNat = p.1.toNat + 2 ^ w * (borrow b p).toNat := by
  have hx := p.1.isLt
  have hy := p.2.isLt
  have hone : 1 < 2 ^ w := Nat.one_lt_two_pow hw.ne'
  have hb : b.toNat ≤ 1 := b.toNat_le
  have hbit : (BitVec.ofNat w b.toNat).toNat = b.toNat := by
    rw [BitVec.toNat_ofNat, Nat.mod_eq_of_lt (hb.trans_lt hone)]
  rw [difference, borrow]
  rcases Nat.lt_trichotomy p.1.toNat p.2.toNat with hlt | heq | hgt
  · have hfirst : (p.1 - p.2).toNat = 2 ^ w - (p.2.toNat - p.1.toNat) := BitVec.toNat_sub_of_lt hlt
    have hsecond : BitVec.ofNat w b.toNat ≤ p.1 - p.2 := by
      rw [BitVec.le_def, hbit, hfirst]
      omega
    rw [BitVec.toNat_sub_of_le hsecond, hfirst, hbit, decide_eq_true (by omega), Bool.toNat_true, Nat.mul_one]
    omega
  · have hfirst : p.1 - p.2 = 0#w := by rw [BitVec.eq_of_toNat_eq heq, BitVec.sub_self]
    rw [hfirst, heq]
    cases b with
    | false =>
        rw [decide_eq_false (by simp)]
        simp
    | true =>
        have hneg : 0#w < BitVec.ofNat w true.toNat := by
          rw [BitVec.lt_def, hbit]
          simp
        rw [BitVec.toNat_sub_of_lt hneg, hbit, decide_eq_true (by simp)]
        simp
        omega
  · have hfirst : (p.1 - p.2).toNat = p.1.toNat - p.2.toNat :=
      BitVec.toNat_sub_of_le (BitVec.le_def.mpr hgt.le)
    have hsecond : BitVec.ofNat w b.toNat ≤ p.1 - p.2 := by
      rw [BitVec.le_def, hbit, hfirst]
      omega
    rw [BitVec.toNat_sub_of_le hsecond, hfirst, hbit, decide_eq_false (by omega), Bool.toNat_false, Nat.mul_zero]
    omega

theorem value_differences (hw : 0 < w) (b : Bool) (ps : List (BitVec w × BitVec w)) :
    value (outputs difference borrow b ps) + value (ps.map Prod.snd) + b.toNat =
      value (ps.map Prod.fst) + (2 ^ w) ^ ps.length * (carryOut borrow b ps).toNat := by
  induction ps generalizing b with
  | nil => simp [outputs, carryOut, value_nil]
  | cons p ps ih =>
      have hdigit := difference_add hw b p
      have hrest := congrArg (2 ^ w * ·) (ih (borrow b p))
      simp only [Nat.mul_add] at hrest
      rw [outputs, carryOut, List.map_cons, List.map_cons, value_cons, value_cons, value_cons,
        List.length_cons, Nat.pow_succ', Nat.mul_assoc]
      omega

theorem value_differences_cast (hw : 0 < w) (ps : List (BitVec w × BitVec w)) :
    (value (ps.map Prod.fst) : Int) - value (ps.map Prod.snd) =
      value (outputs difference borrow false ps) + (2 ^ w) ^ ps.length * -((carryOut borrow false ps).toNat : Int) := by
  have hcast : (value (outputs difference borrow false ps) : Int) + value (ps.map Prod.snd) =
      value (ps.map Prod.fst) + (2 ^ w) ^ ps.length * (carryOut borrow false ps).toNat := by
    exact_mod_cast value_differences hw false ps
  linarith

theorem value_differences_emod (hw : 0 < w) (ps : List (BitVec w × BitVec w)) :
    ((value (ps.map Prod.fst) : Int) - value (ps.map Prod.snd)) % (2 ^ w) ^ ps.length =
      value (outputs difference borrow false ps) := by
  have hlt := value_outputs_lt difference borrow false ps
  rw [value_differences_cast hw, Int.add_mul_emod_self_left, Int.emod_eq_of_lt (Int.natCast_nonneg _)]
  exact_mod_cast hlt

theorem carryOut_borrow (hw : 0 < w) (ps : List (BitVec w × BitVec w)) :
    carryOut borrow false ps = true ↔ value (ps.map Prod.fst) < value (ps.map Prod.snd) := by
  have hsub := value_differences hw false ps
  have hlt := value_outputs_lt difference borrow false ps
  cases hb : carryOut borrow false ps with
  | false =>
      rw [hb, Bool.toNat_false, Nat.mul_zero] at hsub
      exact iff_of_false Bool.false_ne_true (by omega)
  | true =>
      rw [hb, Bool.toNat_true, Nat.mul_one, Bool.toNat_false] at hsub
      exact iff_of_true rfl (by omega)

end Subtraction

section Signed

variable {w : Nat}

/-- The number of a list of words in two's complement. -/
def signed (ws : List (BitVec w)) : Int :=
  if 2 * value ws < (2 ^ w) ^ ws.length then value ws else value ws - (2 ^ w : Int) ^ ws.length

/-- The number has a two's-complement form in n words. -/
def Fits (w n : Nat) (z : Int) : Prop := -(2 ^ w) ^ n ≤ 2 * z ∧ 2 * z < (2 ^ w) ^ n

instance (w n : Nat) (z : Int) : Decidable (Fits w n z) := inferInstanceAs (Decidable (_ ∧ _))

theorem even_base (hw : 0 < w) : ∃ k : Int, (2 ^ w : Int) = 2 * k := by
  obtain ⟨k, hk⟩ := two_dvd_base hw
  exact ⟨k, by exact_mod_cast hk⟩

/-- Words below the highest do not decide on which side of a half a number is. -/
theorem half_lt_iff (hw : 0 < w) {v M : Int} (hv : 0 ≤ v) (hM : v < M) (D : Int) :
    2 * (v + M * D) < M * 2 ^ w ↔ 2 * D < 2 ^ w := by
  obtain ⟨k, hk⟩ := even_base hw
  rw [hk]
  constructor
  · intro h
    by_contra hge
    have hkD : k ≤ D := by omega
    nlinarith
  · intro h
    have hDk : D + 1 ≤ k := by omega
    nlinarith

theorem le_half_iff (hw : 0 < w) {v M : Int} (hv : 0 ≤ v) (hM : v < M) (D : Int) :
    -(M * 2 ^ w) ≤ 2 * (v + M * D) ↔ -2 ^ w ≤ 2 * D := by
  obtain ⟨k, hk⟩ := even_base hw
  rw [hk]
  constructor
  · intro h
    by_contra hlt
    have hDk : D + 1 ≤ -k := by omega
    nlinarith
  · intro h
    have hkD : -k ≤ D := by omega
    nlinarith

theorem fits_iff (hw : 0 < w) {v : Int} {n : Nat} (hv : 0 ≤ v) (hlt : v < (2 ^ w) ^ n) (D : Int) :
    Fits w (n + 1) (v + (2 ^ w) ^ n * D) ↔ Fits w 1 D := by
  rw [Fits, Fits, pow_succ, pow_one, half_lt_iff hw hv hlt, le_half_iff hw hv hlt]

theorem signed_concat (hw : 0 < w) (ws : List (BitVec w)) (x : BitVec w) :
    signed (ws ++ [x]) = value ws + (2 ^ w) ^ ws.length * x.toInt := by
  have hv : (0 : Int) ≤ value ws := Int.natCast_nonneg _
  have hlt : (value ws : Int) < (2 ^ w) ^ ws.length := by exact_mod_cast value_lt ws
  have hside := half_lt_iff hw hv hlt (x.toNat : Int)
  have hside' : 2 * (value ws + (2 ^ w) ^ ws.length * x.toNat) < (2 ^ w) ^ ws.length * 2 ^ w ↔
      2 * x.toNat < 2 ^ w := by exact_mod_cast hside
  rw [signed, value_concat, List.length_append, List.length_singleton, pow_succ, BitVec.toInt_eq_toNat_cond]
  by_cases hx : 2 * x.toNat < 2 ^ w
  · rw [if_pos (hside'.mpr hx), if_pos hx]
    push_cast
    rfl
  · rw [if_neg (mt hside'.mp hx), if_neg hx]
    push_cast
    ring

/-- Whether a subtraction overflows shows in the highest words and the borrow from
the others. -/
theorem fits_signed_sub (hw : 0 < w) (ps : List (BitVec w × BitVec w)) (p : BitVec w × BitVec w) :
    Fits w (ps.length + 1) (signed ((ps ++ [p]).map Prod.fst) - signed ((ps ++ [p]).map Prod.snd)) ↔
      Fits w 1 (p.1.toInt - p.2.toInt - (carryOut borrow false ps).toNat) := by
  have hlt := value_outputs_lt difference borrow false ps
  rw [← fits_iff hw (v := value (outputs difference borrow false ps)) (n := ps.length)
    (Int.natCast_nonneg _) (by exact_mod_cast hlt)]
  rw [List.map_append, List.map_append, List.map_singleton, List.map_singleton, signed_concat hw,
    signed_concat hw, List.length_map, List.length_map]
  have hint := value_differences_cast hw ps
  have hsplit : (value (ps.map Prod.fst) : Int) + (2 ^ w) ^ ps.length * p.1.toInt -
      (value (ps.map Prod.snd) + (2 ^ w) ^ ps.length * p.2.toInt) =
        value (outputs difference borrow false ps) +
          (2 ^ w) ^ ps.length * (p.1.toInt - p.2.toInt - (carryOut borrow false ps).toNat) := by
    linarith
  rw [hsplit]

end Signed

section Shift

variable {w : Nat}

def double (c : Bool) (x : BitVec w) : BitVec w := BitVec.ofNat w (2 * x.toNat + c.toNat)

/-- A word shifted to the right, with the carry in its highest bit. -/
def halve (c : Bool) (x : BitVec w) : BitVec w := BitVec.ofNat w ((x.toNat + 2 ^ w * c.toNat) / 2)

def odd (x : BitVec w) : Bool := decide (x.toNat % 2 = 1)

def upper (x : BitVec w) : Bool := decide (2 ^ w ≤ 2 * x.toNat)

theorem double_add (hw : 0 < w) (c : Bool) (x : BitVec w) :
    (double c x).toNat + 2 ^ w * (upper x).toNat = 2 * x.toNat + c.toNat := by
  obtain ⟨k, hk⟩ := two_dvd_base hw
  have hx := x.isLt
  have hc := c.toNat_le
  rw [double, upper, BitVec.toNat_ofNat]
  by_cases hup : 2 ^ w ≤ 2 * x.toNat
  · rw [decide_eq_true hup, Nat.mod_eq_sub_mod (by omega), Nat.mod_eq_of_lt (by omega), Bool.toNat_true]
    omega
  · rw [decide_eq_false hup, Nat.mod_eq_of_lt (by omega), Bool.toNat_false]
    omega

theorem halve_add (hw : 0 < w) (c : Bool) (x : BitVec w) :
    2 * (halve c x).toNat + (odd x).toNat = x.toNat + 2 ^ w * c.toNat := by
  obtain ⟨k, hk⟩ := two_dvd_base hw
  have hx := x.isLt
  have hodd : (odd x).toNat = x.toNat % 2 := by
    rcases Nat.mod_two_eq_zero_or_one x.toNat with h | h <;> simp [odd, h]
  rw [halve, hodd, BitVec.toNat_ofNat]
  cases c with
  | false =>
      rw [Bool.toNat_false, Nat.mul_zero, Nat.mod_eq_of_lt (by omega)]
      omega
  | true =>
      rw [Bool.toNat_true, Nat.mul_one, Nat.mod_eq_of_lt (by omega)]
      omega

theorem value_double (hw : 0 < w) (c : Bool) (ws : List (BitVec w)) :
    value (outputs double (fun _ => upper) c ws) + (2 ^ w) ^ ws.length * (carryOut (fun _ => upper) c ws).toNat =
      2 * value ws + c.toNat := by
  induction ws generalizing c with
  | nil => simp [outputs, carryOut, value_nil]
  | cons x ws ih =>
      have hdigit := double_add hw c x
      have hrest := congrArg (2 ^ w * ·) (ih (upper x))
      simp only [Nat.mul_add] at hrest
      rw [outputs, carryOut, value_cons, value_cons, List.length_cons, Nat.pow_succ', Nat.mul_assoc]
      rw [Nat.mul_left_comm (2 ^ w) 2] at hrest
      omega

theorem value_double_mod (hw : 0 < w) (ws : List (BitVec w)) :
    2 * value ws % (2 ^ w) ^ ws.length = value (outputs double (fun _ => upper) false ws) := by
  have hsum := value_double hw false ws
  have hlt := value_outputs_lt double (fun _ => upper) false ws
  rw [Bool.toNat_false, Nat.add_zero] at hsum
  rw [← hsum, Nat.add_mul_mod_self_left, Nat.mod_eq_of_lt hlt]

theorem carryOut_upper (hw : 0 < w) {ws : List (BitVec w)} (hne : ws ≠ []) :
    carryOut (fun _ => upper) false ws = (value ws).testBit (w * ws.length - 1) := by
  have hsum := value_double hw false ws
  have hlt := value_outputs_lt double (fun _ => upper) false ws
  have hws := value_lt ws
  have hpos : 0 < w * ws.length := Nat.mul_pos hw (List.length_pos_of_ne_nil hne)
  have hpow : (2 ^ w) ^ ws.length = 2 * 2 ^ (w * ws.length - 1) := by
    rw [← Nat.pow_mul, ← Nat.pow_succ', Nat.succ_eq_add_one, Nat.sub_add_cancel hpos]
  rw [hpow] at hlt hsum hws
  rw [Nat.testBit_eq_decide_div_mod_eq]
  cases hcarry : carryOut (fun _ => upper) false ws with
  | false =>
      rw [hcarry, Bool.toNat_false] at hsum
      rw [Nat.div_eq_of_lt (by omega)]
      rfl
  | true =>
      rw [hcarry, Bool.toNat_true, Bool.toNat_false] at hsum
      have hone : value ws / 2 ^ (w * ws.length - 1) = 1 := Nat.div_eq_of_lt_le (by omega) (by omega)
      rw [hone]
      rfl

/-- The words come with the highest first. -/
theorem value_halve (hw : 0 < w) (c : Bool) (ws : List (BitVec w)) :
    2 * value (outputs halve (fun _ => odd) c ws).reverse + (carryOut (fun _ => odd) c ws).toNat =
      value ws.reverse + (2 ^ w) ^ ws.length * c.toNat := by
  induction ws generalizing c with
  | nil => simp [outputs, carryOut, value_nil]
  | cons x ws ih =>
      have hdigit := halve_add hw c x
      have hscaled := congrArg ((2 ^ w) ^ ws.length * ·) hdigit
      have hrest := ih (odd x)
      simp only [Nat.mul_add] at hscaled
      rw [outputs, carryOut, List.reverse_cons, List.reverse_cons, value_concat, value_concat,
        List.length_reverse, List.length_reverse, length_outputs, List.length_cons, Nat.pow_succ,
        Nat.mul_assoc]
      rw [Nat.mul_left_comm _ 2] at hscaled
      omega

theorem value_halve_div (hw : 0 < w) (ws : List (BitVec w)) :
    value ws / 2 = value (outputs halve (fun _ => odd) false ws.reverse).reverse ∧
      carryOut (fun _ => odd) false ws.reverse = (value ws).testBit 0 := by
  have hsum := value_halve hw false ws.reverse
  rw [List.reverse_reverse, Bool.toNat_false, Nat.mul_zero, Nat.add_zero] at hsum
  have hbit := (carryOut (fun _ => odd) false ws.reverse).toNat_le
  refine ⟨by omega, ?_⟩
  rw [Nat.testBit_zero, ← hsum]
  cases carryOut (fun _ => odd) false ws.reverse <;> simp

theorem double_ne (hw : 0 < w) (x : BitVec w) : double false x ≠ double true x := by
  have hfalse := double_add hw false x
  have htrue := double_add hw true x
  intro he
  rw [he, Bool.toNat_false] at hfalse
  rw [Bool.toNat_true] at htrue
  omega

theorem halve_ne (hw : 0 < w) (x : BitVec w) : halve false x ≠ halve true x := by
  have hfalse := halve_add hw false x
  have htrue := halve_add hw true x
  have hbase := Nat.two_pow_pos w
  intro he
  rw [he, Bool.toNat_false] at hfalse
  rw [Bool.toNat_true] at htrue
  omega

/-- Doubling without the carries behind the lowest word. -/
theorem double_lost_iff (hw : 0 < w) (x : BitVec w) (xs : List (BitVec w)) :
    value (double false x :: outputs double lost (upper x) xs) = 2 * value (x :: xs) % (2 ^ w) ^ (x :: xs).length ∧
        carryOut lost (upper x) xs = (value (x :: xs)).testBit (w * (x :: xs).length - 1) ↔
      ∀ y ∈ xs, upper y = false := by
  rw [value_double_mod hw, ← carryOut_upper hw (List.cons_ne_nil x xs),
    ← outputs_lost_iff (double_ne hw) (upper x) xs]
  refine and_congr_left' ⟨fun h => ?_, fun h => ?_⟩
  · refine (List.cons.inj (value_injective ?_ h)).2
    exact congrArg Nat.succ ((length_outputs _ _ _ _).trans (length_outputs _ _ _ _).symm)
  · rw [h]
    rfl

theorem halve_lost_iff (hw : 0 < w) (xs : List (BitVec w)) :
    value (outputs halve lost false xs.reverse).reverse = value xs / 2 ∧
        carryOut lost false xs.reverse = (value xs).testBit 0 ↔
      ∀ y ∈ xs, odd y = false := by
  obtain ⟨hhalf, hbit⟩ := value_halve_div hw xs
  have hlost := outputs_lost_iff (halve_ne hw) (g := odd) false xs.reverse
  simp only [List.mem_reverse] at hlost
  rw [hhalf, ← hbit, ← hlost]
  refine and_congr_left' ⟨fun h => ?_, fun h => ?_⟩
  · refine List.reverse_injective (value_injective ?_ h)
    rw [List.length_reverse, List.length_reverse, length_outputs, length_outputs]
  · rw [h]

end Shift

end MetalNes.MultiWord
