import MetalNes.MultiWord
import MetalNes.ResultFlags

namespace MetalNes.ByteArithmetic

open MultiWord NesBus NesTable NesOperations NesClock FlagWrites NesEffects ResultFlags

/-- An operation runs on one pair of bytes after the other, of which the first is
in A and the second is what it fetches. In between everything may change except
the flags that programs see. -/
inductive Chain (op : NesOp) : U8 → List (U8 × U8) → List U8 → U8 → Prop
  | nil (P : U8) : Chain op P [] [] P
  | cons {P Q : U8} {s : Nes} {p : U8 × U8} {ps : List (U8 × U8)} {rs : List U8}
      (hA : s.A = p.1) (hoperand : operand s = p.2)
      (hP : ∀ f ≠ .U, getflag s.P f = getflag P f) (h : Chain op (operate op s).1.P ps rs Q) :
      Chain op P (p :: ps) ((operate op s).1.A :: rs) Q

theorem chain_single (op : NesOp) {opcode : U8} (h : (nesInstruction opcode).addrMode ≠ .IMP)
    (p : U8 × U8) (P : U8) : Chain op P [p] [(operate op (immediateMachine opcode p.1 p.2 P)).1.A]
      (operate op (immediateMachine opcode p.1 p.2 P)).1.P :=
  .cons rfl (operand_immediateMachine h p.1 p.2 P) (fun _ _ => rfl) (.nil _)

section Addition

theorem adc_clears (P : U8) (c v : Bool) :
    applyWrites P [(.C, c), (.Z, false), (.V, v), (.N, false)] = 0 := by
  revert P c v
  decide +kernel

theorem nesADC_clears (s : Nes) : (operate .ADC s).1.A = 0 ∧ (operate .ADC s).1.P = 0 := by
  have hP := (operate_effect .ADC s).P (by decide) (by decide)
  refine ⟨?_, hP.trans (adc_clears s.P _ _)⟩
  simp only [operate, nesADC]
  rfl

/-- What adding byte by byte should leave: the sum, its carry and its overflow, and
the zero and sign of the highest byte. -/
structure AddsUp (ps : List (U8 × U8)) (rs : List U8) (Q : U8) : Prop where
  length : rs.length = ps.length
  sum : value rs = (value (ps.map Prod.fst) + value (ps.map Prod.snd)) % 256 ^ ps.length
  carry : getflag Q .C = true ↔ 256 ^ ps.length ≤ value (ps.map Prod.fst) + value (ps.map Prod.snd)
  overflow : getflag Q .V = true ↔
    ¬ Fits 8 ps.length (signed (ps.map Prod.fst) + signed (ps.map Prod.snd))
  last : ∀ r, rs.getLast? = some r → Reports Q r

theorem chain_adc {P Q : U8} {p : U8 × U8} {ps : List (U8 × U8)} {rs : List U8}
    (h : Chain .ADC P (p :: ps) rs Q) : rs.getLast? = some 0 ∧ Q = 0 := by
  induction ps generalizing P p rs with
  | nil =>
      cases h with
      | @cons _ _ s _ _ _ hA hoperand hP hrest =>
          cases hrest with
          | nil => exact ⟨congrArg some (nesADC_clears s).1, (nesADC_clears s).2⟩
  | cons q ps ih =>
      cases h with
      | cons hA hoperand hP hrest =>
          obtain ⟨hlast, hQ⟩ := ih hrest
          refine ⟨?_, hQ⟩
          cases hrest with
          | cons => rwa [List.getLast?_cons_cons]

/-- Adding never comes out right: a last byte of zero is not reported. -/
theorem adc_never_addsUp {ps : List (U8 × U8)} {rs : List U8} {P Q : U8} (hne : ps ≠ [])
    (h : Chain .ADC P ps rs Q) : ¬ AddsUp ps rs Q := by
  intro hsum
  obtain ⟨p, ps, rfl⟩ := List.exists_cons_of_ne_nil hne
  obtain ⟨hlast, rfl⟩ := chain_adc h
  have hzero := (hsum.last 0 hlast).1.mpr rfl
  revert hzero
  decide

theorem one_and_one_no_sum : ¬ AddsUp [(1, 1)] [0] 0 :=
  adc_never_addsUp (by decide)
    (chain_single .ADC (by decide +kernel : (nesInstruction 0x69).addrMode ≠ .IMP) (1, 1) 0)

theorem one_and_one : Chain .ADC 0 [(1, 1)] [0] 0 ∧ ¬ AddsUp [(1, 1)] [0] 0 :=
  ⟨chain_single .ADC (by decide +kernel : (nesInstruction 0x69).addrMode ≠ .IMP) (1, 1) 0,
    fun h => absurd h.sum (by decide)⟩

end Addition

section Subtraction

/-- The sum that nes_SBC forms in 16 bits. -/
def sbcTemp (A m : U8) (c : Bool) : U16 := A.setWidth 16 + (m.setWidth 16 ^^^ 0x00FF) + ofBool c

theorem setWidth_complement (m : U8) : m.setWidth 16 ^^^ (0x00FF : U16) = (~~~m).setWidth 16 := by
  revert m
  decide +kernel

theorem loByte_sbcTemp (A m : U8) (c : Bool) : loByte (sbcTemp A m c) = difference (!c) (A, m) := by
  rw [sbcTemp, setWidth_complement, loByte, difference]
  cases c with
  | false | true =>
      simp only [ofBool, Bool.not_false, Bool.not_true, Bool.toNat_true, Bool.toNat_false,
        Bool.false_eq_true, if_true, if_false]
      bv_omega

theorem loByte_negated (x : U16) : loByte (x * 0x0FF) = -loByte x := by
  rw [loByte, loByte]
  bv_omega

theorem sbc_flags (P : U8) {c z v n : Bool} (hz : (z && n) = false) :
    getflag (applyWrites P [(.C, c), (.Z, z), (.V, v), (.N, n)]) .C = false ∧
      getflag (applyWrites P [(.C, c), (.Z, z), (.V, v), (.N, n)]) .V = (n && v) := by
  simp only [applyWrites, List.foldl_cons, List.foldl_nil, getflag_setflag, reduceCtorEq, if_false, if_true]
  generalize getflag P .C = C, getflag P .V = V
  revert c z v n C V
  decide

/-- The overflow that nes_SBC reports. Its sign has to be set as well. -/
def reportedOverflow (b : Bool) (p : U8 × U8) : Bool :=
  let r := difference b p
  r.getLsbD 7 && ((r ^^^ p.1) &&& (r ^^^ ~~~p.2)).getLsbD 7

theorem loByte_overflow (x : U16) (A m : U8) :
    loByte ((x ^^^ A.setWidth 16) &&& (x ^^^ (m.setWidth 16 ^^^ 0x00FF))) =
      (loByte x ^^^ A) &&& (loByte x ^^^ ~~~m) := by
  rw [setWidth_complement]
  simp only [loByte, BitVec.setWidth_and, BitVec.setWidth_xor]
  rw [BitVec.setWidth_setWidth_of_le _ (by decide), BitVec.setWidth_setWidth_of_le _ (by decide),
    BitVec.setWidth_eq, BitVec.setWidth_eq]

theorem flagWrites_sbc (s : Nes) : flagWrites s .SBC =
    let r := difference (!getflag s.P .C) (s.A, operand s)
    [(.C, asBool (sbcTemp s.A (operand s) (getflag s.P .C) &&& 0xFF00)), (.Z, r == 0x0),
      (.V, ((r ^^^ s.A) &&& (r ^^^ ~~~operand s)).getLsbD 7), (.N, r.getLsbD 7)] := by
  have htemp := loByte_sbcTemp s.A (operand s) (getflag s.P .C)
  have hsum : s.A.setWidth 16 + ((operand s).setWidth 16 ^^^ 0x00FF) + ofBool (nesGetflag s .C) =
      sbcTemp s.A (operand s) (getflag s.P .C) := rfl
  simp only [flagWrites, hsum, word_and_eq_zero, asBool_word_bit7, loByte_overflow, htemp]

/-- A subtraction leaves the negated difference and never a carry. -/
theorem nesSBC_spec (s : Nes) :
    (operate .SBC s).1.A = -difference (!getflag s.P .C) (s.A, operand s) ∧
      getflag (operate .SBC s).1.P .C = false ∧
      getflag (operate .SBC s).1.P .V = reportedOverflow (!getflag s.P .C) (s.A, operand s) := by
  have hP := (operate_effect .SBC s).P (by decide) (by decide)
  have htemp := loByte_sbcTemp s.A (operand s) (getflag s.P .C)
  refine ⟨?_, ?_⟩
  · rw [← htemp, ← loByte_negated]
    simp only [operate, nesSBC, nesFetch_eq]
    rfl
  · rw [hP, flagWrites_sbc]
    exact sbc_flags s.P (zero_and_sign _)

/-- The results left in A: negated differences, with a borrow behind the first. -/
def negated : Bool → List (U8 × U8) → List U8 :=
  outputs (fun b p => -difference b p) fun _ _ => true

theorem chain_sbc {ps : List (U8 × U8)} {rs : List U8} {P Q : U8} (h : Chain .SBC P ps rs Q) :
    rs = negated (!getflag P .C) ps := by
  induction h with
  | nil P => rfl
  | @cons P Q s p ps rs hA hoperand hP h ih =>
      obtain ⟨hresult, hC, -⟩ := nesSBC_spec s
      rw [hC] at ih
      rw [hA, hoperand, hP .C (by decide)] at hresult
      rw [negated, outputs, hresult, ih]
      rfl

theorem chain_sbc_flags {qs : List (U8 × U8)} {p : U8 × U8} {rs : List U8} {P Q : U8}
    (h : Chain .SBC P (qs ++ [p]) rs Q) : getflag Q .C = false ∧
      getflag Q .V = reportedOverflow (carryOut (fun _ _ => true) (!getflag P .C) qs) p := by
  induction qs generalizing P rs with
  | nil =>
      cases h with
      | @cons _ _ s _ _ _ hA hoperand hP hrest =>
          cases hrest with
          | nil =>
              have hspec := (nesSBC_spec s).2
              rwa [hA, hoperand, hP .C (by decide)] at hspec
  | cons q qs ih =>
      cases h with
      | @cons _ _ s _ _ _ hA hoperand hP hrest =>
          have hflags := ih hrest
          rwa [(nesSBC_spec s).2.1] at hflags

structure Subtracts (ps : List (U8 × U8)) (rs : List U8) (Q : U8) : Prop where
  length : rs.length = ps.length
  difference : (value rs : Int) =
    ((value (ps.map Prod.fst) : Int) - value (ps.map Prod.snd)) % 256 ^ ps.length
  carry : getflag Q .C = true ↔ value (ps.map Prod.snd) ≤ value (ps.map Prod.fst)
  overflow : getflag Q .V = true ↔
    ¬ Fits 8 ps.length (signed (ps.map Prod.fst) - signed (ps.map Prod.snd))

/-- A lowest pair whose difference is its own negative and borrows. -/
def Lowest (p : U8 × U8) : Prop := p.2.toNat = p.1.toNat + 128

/-- A higher pair whose difference behind a borrow is so. -/
def Higher (p : U8 × U8) : Prop := p.1 = 0 ∧ p.2 = 255 ∨ p.2.toNat = p.1.toNat + 127

def SelfNegating : List (U8 × U8) → Prop
  | [] => True
  | p :: ps => Lowest p ∧ ∀ q ∈ ps, Higher q

theorem lowest_iff (p : U8 × U8) :
    -difference false p = difference false p ∧ borrow false p = true ↔ Lowest p := by
  rw [difference, borrow, Lowest, decide_eq_true_iff, Bool.toNat_false]
  have hx := p.1.isLt
  have hy := p.2.isLt
  constructor
  · rintro ⟨hneg, hlt⟩
    bv_omega
  · intro h
    exact ⟨by bv_omega, by omega⟩

theorem higher_iff (b : Bool) (p : U8 × U8) :
    -difference true p = difference b p ∧ borrow b p = true ↔ b = true ∧ Higher p := by
  rw [difference, difference, borrow, Higher, decide_eq_true_iff, Bool.toNat_true]
  have hx := p.1.isLt
  have hy := p.2.isLt
  cases b with
  | false =>
      rw [Bool.toNat_false]
      refine iff_of_false ?_ fun h => Bool.noConfusion h.1
      rintro ⟨hneg, hlt⟩
      bv_omega
  | true =>
      rw [Bool.toNat_true, and_iff_right rfl]
      constructor
      · rintro ⟨hneg, hlt⟩
        bv_omega
      · intro h
        exact ⟨by bv_omega, by bv_omega⟩

theorem negated_tail_iff (b : Bool) (ps : List (U8 × U8)) :
    negated true ps = outputs difference borrow b ps ∧ carryOut borrow b ps = true ↔
      b = true ∧ ∀ q ∈ ps, Higher q := by
  induction ps generalizing b with
  | nil =>
      constructor
      · exact fun h => ⟨h.2, fun q hq => absurd hq List.not_mem_nil⟩
      · exact fun h => ⟨rfl, h.1⟩
  | cons q ps ih =>
      have htail := ih (borrow b q)
      have hhead := higher_iff b q
      rw [negated, outputs, outputs, carryOut, List.cons.injEq, List.forall_mem_cons]
      rw [negated] at htail
      constructor
      · rintro ⟨⟨hneg, houtputs⟩, hcarry⟩
        obtain ⟨hborrow, hrest⟩ := htail.mp ⟨houtputs, hcarry⟩
        obtain ⟨hb, hq⟩ := hhead.mp ⟨hneg, hborrow⟩
        exact ⟨hb, hq, hrest⟩
      · rintro ⟨hb, hq, hrest⟩
        obtain ⟨hneg, hborrow⟩ := hhead.mpr ⟨hb, hq⟩
        obtain ⟨houtputs, hcarry⟩ := htail.mpr ⟨hborrow, hrest⟩
        exact ⟨⟨hneg, houtputs⟩, hcarry⟩

theorem negated_iff {ps : List (U8 × U8)} (hne : ps ≠ []) :
    negated false ps = outputs difference borrow false ps ∧ carryOut borrow false ps = true ↔
      SelfNegating ps := by
  obtain ⟨p, ps, rfl⟩ := List.exists_cons_of_ne_nil hne
  have htail := negated_tail_iff (borrow false p) ps
  have hhead := lowest_iff p
  rw [negated, outputs, outputs, carryOut, List.cons.injEq, SelfNegating, and_assoc]
  rw [negated] at htail
  rw [htail, ← and_assoc, hhead]

/-- The overflow is reported right wherever the difference is its own negative. -/
theorem reported_lowest {p : U8 × U8} (h : Lowest p) :
    reportedOverflow false p = true ↔ ¬ Fits 8 1 (p.1.toInt - p.2.toInt - (false.toNat : Int)) := by
  have hbyte : ∀ x : U8, x.toNat < 128 → (reportedOverflow false (x, x + 128) = true ↔
      ¬ Fits 8 1 (x.toInt - (x + 128).toInt - (false.toNat : Int))) := by
    decide +kernel
  have hy := p.2.isLt
  rw [Lowest] at h
  have hpair : p.2 = p.1 + 128 := by bv_omega
  have hlow := hbyte p.1 (by omega)
  rwa [← hpair] at hlow

theorem reported_higher {p : U8 × U8} (h : Higher p) :
    reportedOverflow true p = true ↔ ¬ Fits 8 1 (p.1.toInt - p.2.toInt - (true.toNat : Int)) := by
  have hbyte : ∀ x : U8, x.toNat < 129 → (reportedOverflow true (x, x + 127) = true ↔
      ¬ Fits 8 1 (x.toInt - (x + 127).toInt - (true.toNat : Int))) := by
    decide +kernel
  have hy := p.2.isLt
  rcases h with ⟨hx, hy⟩ | h
  · obtain ⟨x, y⟩ := p
    obtain rfl : x = 0 := hx
    obtain rfl : y = 255 := hy
    decide +kernel
  · have hpair : p.2 = p.1 + 127 := by bv_omega
    have hhigh := hbyte p.1 (by omega)
    rwa [← hpair] at hhigh

theorem carryOut_higher {ps : List (U8 × U8)} (h : ∀ q ∈ ps, Higher q) : carryOut borrow true ps = true :=
  ((negated_tail_iff true ps).mpr ⟨rfl, h⟩).2

theorem reported_last {qs : List (U8 × U8)} {p : U8 × U8} (h : SelfNegating (qs ++ [p])) :
    reportedOverflow (carryOut (fun _ _ => true) false qs) p = true ↔
      ¬ Fits 8 1 (p.1.toInt - p.2.toInt - ((carryOut borrow false qs).toNat : Int)) := by
  cases qs with
  | nil => exact reported_lowest h.1
  | cons q qs =>
      obtain ⟨hlow, hrest⟩ := h
      have hstale : carryOut (fun _ _ => true) true qs = true := by
        clear hrest
        induction qs with
        | nil => rfl
        | cons _ _ ih => exact ih
      have htrue : carryOut borrow (borrow false q) qs = true := by
        rw [((lowest_iff q).mpr hlow).2]
        exact carryOut_higher fun r hr => hrest r (List.mem_append_left _ hr)
      rw [carryOut, carryOut, hstale, htrue]
      exact reported_higher (hrest p (List.mem_append_right _ (List.mem_singleton_self p)))

section Result

variable {ps : List (U8 × U8)} {rs : List U8} {P Q : U8} (hC : getflag P .C = true)
  (h : Chain .SBC P ps rs Q)

include hC h

theorem chain_sbc_negated : rs = negated false ps := by
  have hresults := chain_sbc h
  rwa [hC] at hresults

theorem chain_sbc_reported {qs : List (U8 × U8)} {p : U8 × U8} (hlast : ps = qs ++ [p]) :
    getflag Q .C = false ∧
      getflag Q .V = reportedOverflow (carryOut (fun _ _ => true) false qs) p := by
  subst hlast
  have hflags := chain_sbc_flags h
  rwa [hC] at hflags

theorem selfNegating_of_subtracts (hne : ps ≠ []) (hsub : Subtracts ps rs Q) : SelfNegating ps := by
  obtain ⟨qs, p, hlast⟩ := (List.eq_nil_or_concat' ps).resolve_left hne
  obtain ⟨hQC, -⟩ := chain_sbc_reported hC h hlast
  have hmod : ((value (ps.map Prod.fst) : Int) - value (ps.map Prod.snd)) % 256 ^ ps.length =
      value (outputs difference borrow false ps) := value_differences_emod (by decide) ps
  have hvalue := hsub.difference.trans hmod
  have hnat : value rs = value (outputs difference borrow false ps) := by exact_mod_cast hvalue
  rw [chain_sbc_negated hC h] at hnat
  refine (negated_iff hne).mp ⟨value_injective ?_ hnat, (carryOut_borrow (by decide) ps).mpr ?_⟩
  · rw [negated, length_outputs, length_outputs]
  · by_contra hge
    have hset := hsub.carry.mpr (Nat.le_of_not_lt hge)
    rw [hQC] at hset
    cases hset

theorem subtracts_of_selfNegating (hne : ps ≠ []) (hself : SelfNegating ps) : Subtracts ps rs Q := by
  obtain ⟨qs, p, hlast⟩ := (List.eq_nil_or_concat' ps).resolve_left hne
  obtain ⟨hQC, hQV⟩ := chain_sbc_reported hC h hlast
  obtain ⟨houtputs, hborrow⟩ := (negated_iff hne).mpr hself
  have hless := (carryOut_borrow (by decide) ps).mp hborrow
  refine ⟨?_, ?_, ?_, ?_⟩
  · rw [chain_sbc_negated hC h, negated, length_outputs]
  · rw [chain_sbc_negated hC h, houtputs]
    exact (value_differences_emod (by decide) ps).symm
  · rw [hQC]
    exact iff_of_false Bool.false_ne_true (Nat.not_le_of_lt hless)
  · rw [hlast] at hself ⊢
    rw [hQV, List.length_append, List.length_singleton, fits_signed_sub (by decide) qs p]
    exact reported_last hself

end Result

/-- Subtracting comes out right exactly where each difference is its own negative. -/
theorem sbc_subtracts_iff {ps : List (U8 × U8)} {rs : List U8} {P Q : U8} (hne : ps ≠ [])
    (hC : getflag P .C = true) (h : Chain .SBC P ps rs Q) : Subtracts ps rs Q ↔ SelfNegating ps :=
  ⟨selfNegating_of_subtracts hC h hne, subtracts_of_selfNegating hC h hne⟩

theorem sbc_subtracts_zero : Subtracts [(0, 128)] [128] 0xC0 :=
  (sbc_subtracts_iff (by decide) (by decide)
    (chain_single .SBC (by decide +kernel : (nesInstruction 0xE9).addrMode ≠ .IMP) (0, 128) 1)).mpr
    ⟨rfl, fun _ h => absurd h List.not_mem_nil⟩

theorem two_less_one : Chain .SBC 1 [(2, 1)] [255] 0 ∧ ¬ Subtracts [(2, 1)] [255] 0 :=
  ⟨chain_single .SBC (by decide +kernel : (nesInstruction 0xE9).addrMode ≠ .IMP) (2, 1) 1,
    fun h => absurd h.difference (by decide)⟩

end Subtraction

end MetalNes.ByteArithmetic
