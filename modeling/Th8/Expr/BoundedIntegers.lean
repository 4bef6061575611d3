import Th8.Convert.WideLiterals
import Th8.Expr.ExactInteger

/-!
# Integers of 64 bits without the library

Without big integers, an operator whose result has no place in 64 bits has to fail, and must
not fail otherwise.  The tests in front of the operators decide this exactly.  The loop of
`**` tests every product it makes: a product that does not fit is a factor of the result,
and what is left to multiply with does not make the result smaller.
-/

namespace Th8.Expr

open Bigint Support Option Int

/-! ## Powers -/

section Powers

variable {a b : ℤ}

theorem not_twosRange_mul (h : ¬TwosRange 64 a) (hb : 1 ≤ b) : ¬TwosRange 64 (a * b) := by
  rw [twosRange_wide] at h ⊢
  rintro ⟨hlo, hhi⟩
  rcases le_total 0 a with ha | ha
  · have hgrow : a * 1 ≤ a * b := mul_le_mul_of_nonneg_left hb ha
    omega
  · have hgrow : a * b ≤ a * 1 := mul_le_mul_of_nonpos_left hb ha
    omega

theorem square_gt (h : ¬TwosRange 64 (a * a)) : 2 ^ 63 < a * a := by
  have hnonneg : 0 ≤ a * a := mul_self_nonneg a
  have hge : 2 ^ 63 ≤ a * a := by
    rw [twosRange_wide] at h
    omega
  obtain ⟨m, hm⟩ : ∃ m : ℕ, m = a.natAbs := ⟨_, rfl⟩
  have habs : a * a = (m * m : ℕ) := by rw [hm, natCast_mul, natAbs_mul_self']
  rw [habs] at hge ⊢
  have hlow : 3037000500 ≤ m := by
    by_contra hlt
    have hle : m ≤ 3037000499 := by omega
    have hsmall : m * m ≤ 3037000499 * 3037000499 := Nat.mul_le_mul hle hle
    omega
  have hlarge : 3037000500 * 3037000500 ≤ m * m := Nat.mul_le_mul hlow hlow
  omega

theorem not_twosRange_square_mul (h : ¬TwosRange 64 (a * a)) (hb : b ≠ 0) :
    ¬TwosRange 64 (a * a * b) := by
  have hbig := square_gt h
  have hb1 : 1 ≤ b.natAbs := natAbs_pos.mpr hb
  have habs : (a * a * b).natAbs = (a * a).natAbs * b.natAbs := natAbs_mul _ _
  have hgrow : (a * a).natAbs ≤ (a * a * b).natAbs := by
    rw [habs]
    exact Nat.le_mul_of_pos_right _ hb1
  rw [twosRange_wide]
  omega

theorem powLoop_complete {base result : ℤ} {exp : ℕ} (hbase : base ≠ 0) (hresult : result ≠ 0)
    (h : TwosRange 64 (result * base ^ exp)) :
    ∃ r, powLoop (stepMul true) (stepSquare true) base exp result = some r := by
  induction exp using Nat.strong_induction_on generalizing base result with
  | _ exp ih =>
    by_cases hexp : exp = 0
    · exact ⟨result, hexp ▸ powLoop_zero base result⟩
    have hsplit : base ^ exp = base ^ (exp % 2) * (base * base) ^ (exp / 2) := by
      rw [← pow_two, ← pow_mul, ← pow_add, Nat.mod_add_div]
    have hsquare0 : base * base ≠ 0 := mul_ne_zero hbase hbase
    have hsquarePos : 1 ≤ (base * base) ^ (exp / 2) :=
      add_one_le_of_lt (pow_pos (lt_of_le_of_ne (mul_self_nonneg base) hsquare0.symm) _)
    have hmul : (if exp % 2 = 1 then stepMul true result base else some result) =
        some (result * base ^ (exp % 2)) := by
      by_cases hodd : exp % 2 = 1
      · rw [if_pos hodd, hodd, pow_one, stepMul_checked]
        refine ⟨?_, rfl⟩
        by_contra hover
        rw [hsplit, hodd, pow_one, ← mul_assoc] at h
        exact not_twosRange_mul hover hsquarePos h
      · rw [if_neg hodd, Nat.mod_two_ne_one.mp hodd, pow_zero, mul_one]
    rw [powLoop_pos hexp, hmul, bind_some]
    by_cases hlast : 1 < exp
    · have hfits : TwosRange 64 (base * base) := by
        by_contra hover
        have hhalf : exp / 2 = exp / 2 - 1 + 1 := by omega
        have hfactor : result * base ^ exp =
            base * base * (result * base ^ (exp % 2) * (base * base) ^ (exp / 2 - 1)) := by
          rw [hsplit, hhalf, pow_succ, Nat.add_sub_cancel]
          ring
        rw [hfactor] at h
        refine not_twosRange_square_mul hover ?_ h
        exact mul_ne_zero (mul_ne_zero hresult (pow_ne_zero _ hbase)) (pow_ne_zero _ hsquare0)
      rw [if_pos hlast, stepSquare_checked.mpr ⟨hfits, rfl⟩, bind_some]
      refine ih (exp / 2) (by omega) hsquare0 (mul_ne_zero hresult (pow_ne_zero _ hbase)) ?_
      rwa [mul_assoc, ← hsplit]
    · have hdone : exp / 2 = 0 := by omega
      rw [if_neg hlast, bind_some, hdone]
      exact ⟨_, powLoop_zero _ _⟩

theorem wideExponent_eq (exp : ℕ) (ha : TwosRange 64 a) :
    wideExponent true a exp = if TwosRange 64 (a ^ exp) then some (a ^ exp) else none := by
  by_cases hfits : TwosRange 64 (a ^ exp)
  · obtain ⟨r, hr⟩ : ∃ r, wideExponent true a exp = some r := by
      by_cases ha0 : a = 0
      · exact wideExponent_unit exp (by rw [ha0]; decide)
      · exact powLoop_complete ha0 one_ne_zero (by rwa [one_mul])
    rw [if_pos hfits, hr, (wideExponent_checked ha hr).1]
  · rw [if_neg hfits, eq_none_iff_forall_ne_some]
    intro r hr
    obtain ⟨rfl, hrange⟩ := wideExponent_checked ha hr
    exact hfits hrange

end Powers

variable {v : ℤ}

theorem twosRange_of_parseWideInt {z : Bytes} (h : parseWideInt z = .ok v) : TwosRange 64 v := by
  obtain ⟨base, w, hlit, hv, hw⟩ := parseWideInt_eq_ok.mp h
  have hwide : IsWideInt z v := by
    refine isWideInt_iff.mpr ⟨base, w, hlit, hv, ?_⟩
    rcases hw with hw | ⟨hneg, -, hw⟩
    · exact Or.inl hw
    · exact Or.inr ⟨hneg, hw⟩
  obtain ⟨-, -, -, -, -, -, -, hlow, hhigh⟩ := hwide
  rw [twosRange_wide]
  omega

theorem parseWideInt_decimal_wide (h : TwosRange 64 v) : parseWideInt (decimal v) = .ok v := by
  rw [twosRange_wide] at h
  by_cases hmin : v = -2 ^ 63
  · subst hmin
    decide
  · exact parseWideInt_decimal (by omega)

/-! ## The operators -/

def bounded : Config := ⟨false, true⟩

/-- The operators whose result is an integer or does not exist: not the shifts, which drop
bits, and of the powers only those with an exponent that is not negative. -/
def BinaryOp.Bounded (iRight : ℤ) : BinaryOp → Prop
  | .add | .subtract | .multiply | .divide | .modulus => True
  | .exponent => 0 ≤ iRight
  | _ => False

def inWide (v : ℤ) : Option ℤ := if TwosRange 64 v then some v else none

theorem inWide_eq (h : TwosRange 64 v) : inWide v = some v := if_pos h

theorem returnsExactly_of_test {overflows : Prop} [Decidable overflows]
    (h : overflows ↔ ¬TwosRange 64 v) (big : Except Failure Bytes) :
    ReturnsExactly
      (if bounded.bOverflowCheck ∧ overflows then onOverflow bounded big
        else .ok (decimal (wrap 64 v)))
      (inWide v) := by
  unfold inWide
  by_cases hfits : TwosRange 64 v
  · rw [if_neg (fun hover => h.mp hover.2 hfits), if_pos hfits, wrap_eq_self hfits]
    rfl
  · rw [if_pos ⟨rfl, h.mpr hfits⟩, if_neg hfits]
    exact ⟨_, rfl⟩

section Switch

variable {a b : ℤ} (ha : TwosRange 64 a) (hb : TwosRange 64 b)

include ha hb

omit ha hb in
theorem natAbs_tdiv_le (hb : 2 ≤ b.natAbs) : 2 * (a.tdiv b).natAbs ≤ a.natAbs := by
  rw [natAbs_tdiv]
  calc
    2 * (a.natAbs / b.natAbs) ≤ b.natAbs * (a.natAbs / b.natAbs) := Nat.mul_le_mul_right _ hb
    _ ≤ a.natAbs := Nat.mul_div_le _ _

omit hb in
theorem divide_overflows_iff (h0 : b ≠ 0) : (a = int64Min ∧ b = -1) ↔ ¬TwosRange 64 (a.fdiv b) := by
  rw [twosRange_wide] at ha ⊢
  unfold int64Min
  by_cases hone : b = 1
  · subst hone
    rw [fdiv_one]
    omega
  by_cases hminus : b = -1
  · subst hminus
    have hneg : a.fdiv (-1) = -a := by
      rw [fdiv_neg (by decide), if_pos (one_dvd a), fdiv_one]
    rw [hneg]
    omega
  have hhalf := natAbs_tdiv_le (a := a) (by omega : 2 ≤ b.natAbs)
  rw [fdiv_eq h0]
  split_ifs <;> omega

omit ha in
theorem twosRange_fmod (h0 : b ≠ 0) : TwosRange 64 (a.fmod b) := by
  rw [twosRange_wide] at hb ⊢
  rcases lt_or_gt_of_ne h0 with hneg | hpos
  · have hlow := fmod_nonneg_of_pos (-a) (neg_pos.mpr hneg)
    have hhigh := fmod_lt_of_pos (-a) (neg_pos.mpr hneg)
    rw [Int.neg_fmod_neg] at hlow hhigh
    omega
  · have hlow := fmod_nonneg_of_pos a hpos
    have hhigh := fmod_lt_of_pos a hpos
    omega

theorem wideSwitch_bounded (big : Except Failure Bytes) (op : BinaryOp) (hop : op.Bounded b) :
    ReturnsExactly (wideSwitch bounded big a b op.op) ((op.exact a b).bind inWide) := by
  cases op with
  | add => exact returnsExactly_of_test (addOverflows_iff ha hb) big
  | subtract => exact returnsExactly_of_test (subOverflows_iff ha hb) big
  | multiply => exact returnsExactly_of_test mulOverflows_iff big
  | divide =>
    simp only [BinaryOp.op, wideSwitch, BinaryOp.exact]
    by_cases h0 : b = 0
    · rw [if_pos h0, if_pos h0]
      exact ⟨_, rfl⟩
    · rw [if_neg h0, if_neg h0, wideDivide_eq ha hb h0]
      exact returnsExactly_of_test (divide_overflows_iff ha h0) big
  | modulus =>
    simp only [BinaryOp.op, wideSwitch, BinaryOp.exact]
    by_cases h0 : b = 0
    · rw [if_pos h0, if_pos h0]
      exact ⟨_, rfl⟩
    · rw [if_neg h0, if_neg h0, wideModulus_eq hb h0, bind_some, inWide_eq (twosRange_fmod hb h0)]
      rfl
  | exponent =>
    have hexp : 0 ≤ b := hop
    simp only [BinaryOp.op, wideSwitch, BinaryOp.exact]
    rw [if_neg (not_lt.mpr hexp), if_pos hexp, bind_some]
    have hcheck : bounded.bOverflowCheck = true := rfl
    rw [hcheck, wideExponent_eq _ ha, inWide]
    split_ifs
    · rfl
    · exact ⟨_, rfl⟩
  | _ => exact absurd hop id

omit hb in
theorem wideSwitch_bounded_minus (big : Except Failure Bytes) :
    ReturnsExactly (wideSwitch bounded big a b .unaryMinus) (inWide (-a)) := by
  have hmin : a = int64Min ↔ ¬TwosRange 64 (-a) := by
    rw [twosRange_wide] at ha ⊢
    unfold int64Min
    omega
  exact returnsExactly_of_test hmin big

end Switch

section Eval

variable (mp : MpLib) (toBoolean : Bytes → Option Bool)
  (other : Op → Bytes → Option Bytes → Except Failure Bytes)

variable {zLeft : Bytes} {a : ℤ}

theorem integerOperator_bounded {op : Op} {zRight : Bytes} {b : ℤ}
    (hleft : parseWideInt zLeft = .ok a) (hright : parseWideInt zRight = .ok b) :
    integerOperator bounded mp toBoolean op zLeft (some zRight) =
      wideSwitch bounded (bigOperator mp op zLeft (some zRight)) a b op := by
  have hconvert : convertLeft toBoolean op zLeft = .ok a := by
    rw [convertLeft, hleft]
  simp only [integerOperator, bounded, Bool.false_and, Bool.false_eq_true, if_false, hconvert,
    convertRight, hright, ok_bind]

theorem isInteger_bounded {z : Bytes} {v : ℤ} (h : parseWideInt z = .ok v) :
    isInteger bounded mp z = true := by
  rw [isInteger, h]
  rfl

theorem evalOperator_binary {op : BinaryOp} {zRight : Bytes} {b : ℤ}
    (hleft : parseWideInt zLeft = .ok a) (hright : parseWideInt zRight = .ok b) :
    evalOperator bounded mp toBoolean other op.op zLeft (some zRight) =
      integerOperator bounded mp toBoolean op.op zLeft (some zRight) := by
  have hint : (isInteger bounded mp zLeft && (some zRight).all (isInteger bounded mp)) = true := by
    rw [isInteger_bounded mp hleft, all_some, isInteger_bounded mp hright]
    rfl
  unfold evalOperator
  cases op with
  | _ => first | exact if_pos hint | rfl

theorem evalOperator_minus (hleft : parseWideInt zLeft = .ok a) :
    evalOperator bounded mp toBoolean other .unaryMinus zLeft none =
      wideSwitch bounded (bigOperator mp .unaryMinus zLeft none) a 0 .unaryMinus := by
  have hint : (isInteger bounded mp zLeft && (none : Option Bytes).all (isInteger bounded mp)) =
      true := by
    rw [isInteger_bounded mp hleft]
    rfl
  have hconvert : convertLeft toBoolean .unaryMinus zLeft = .ok a := by
    rw [convertLeft, hleft]
  unfold evalOperator
  simp only [eArgType]
  rw [if_pos hint]
  simp only [integerOperator, bounded, Bool.false_and, Bool.false_eq_true, if_false, hconvert,
    convertRight, ok_bind]

/-- Without big integers and with overflow checks, each operator returns the exact result if
it has a place in 64 bits and fails otherwise, whatever texts the operands are read from. -/
theorem evalOperator_bounded :
    (∀ zLeft a, parseWideInt zLeft = .ok a →
      ReturnsExactly (evalOperator bounded mp toBoolean other .unaryMinus zLeft none)
        (inWide (-a))) ∧
    ∀ (op : BinaryOp) zLeft zRight a b, parseWideInt zLeft = .ok a →
      parseWideInt zRight = .ok b → op.Bounded b →
        ReturnsExactly (evalOperator bounded mp toBoolean other op.op zLeft (some zRight))
          ((op.exact a b).bind inWide) := by
  constructor
  · intro zLeft a hleft
    rw [evalOperator_minus mp toBoolean other hleft]
    exact wideSwitch_bounded_minus (twosRange_of_parseWideInt hleft) _
  · intro op zLeft zRight a b hleft hright hop
    rw [evalOperator_binary mp toBoolean other hleft hright,
      integerOperator_bounded mp toBoolean hleft hright]
    exact wideSwitch_bounded (twosRange_of_parseWideInt hleft) (twosRange_of_parseWideInt hright)
      _ op hop

end Eval

/-- The smallest number divided by minus one does not fit, the power `3 ^ 39` does, and the
smallest number has no negative. -/
theorem evalOperator_bounded_extremes :
    ReturnsExactly (evalOperator bounded referenceLib (fun _ => none) (fun _ _ _ => .error .silent)
        BinaryOp.divide.op (decimal (-2 ^ 63)) (some (decimal (-1)))) none ∧
      ReturnsExactly (evalOperator bounded referenceLib (fun _ => none)
        (fun _ _ _ => .error .silent) BinaryOp.exponent.op (decimal 3) (some (decimal 39)))
        (some 4052555153018976267) ∧
      ReturnsExactly (evalOperator bounded referenceLib (fun _ => none)
        (fun _ _ _ => .error .silent) .unaryMinus (decimal (-2 ^ 63)) none) none := by
  have hread (v : ℤ) (h : TwosRange 64 v) := parseWideInt_decimal_wide h
  obtain ⟨hminus, hbinary⟩ :=
    evalOperator_bounded referenceLib (fun _ => none) (fun _ _ _ => .error .silent)
  exact ⟨hbinary .divide _ _ _ _ (hread (-2 ^ 63) (by decide)) (hread (-1) (by decide)) trivial,
    hbinary .exponent _ _ _ _ (hread 3 (by decide)) (hread 39 (by decide))
      (by decide : (0 : ℤ) ≤ 39),
    hminus _ _ (hread (-2 ^ 63) (by decide))⟩

end Th8.Expr
