import Th8.Expr.ExactInteger

/-!
# Where the operators on integers are exact

The exact condition for each operator, in three ranges: both operands of less than 64
bits, operands whose digits fit into the buffer of `th8BigintFromStr`, and longer ones.
-/

namespace Th8.Expr

open Bigint Support Option Int

def Short (v : ℤ) : Prop := v.natAbs < 10 ^ fromStrDigits

/-- With operands of less than 64 bits.  Sums, differences, products and left shifts have
to stay within 64 bits where nothing tests for overflow, which for a left shift by less
than 64 is never tested.  A right shift takes its count modulo 64. -/
def BinaryOp.HoldsWide (check : Bool) : BinaryOp → ℤ → ℤ → Prop
  | .add, a, b => check = true ∨ TwosRange 64 (a + b)
  | .subtract, a, b => check = true ∨ TwosRange 64 (a - b)
  | .multiply, a, b => check = true ∨ TwosRange 64 (a * b)
  | .exponent, a, b =>
    0 ≤ b ∧
      if check then a.natAbs ≤ 1 ∨ b < 2 ^ 31 else TwosRange 64 (a ^ b.toNat)
  | .leftShift, a, b =>
    (0 ≤ b → b ≤ 63 → TwosRange 64 (a * 2 ^ b.toNat)) ∧ (2 ^ 31 ≤ b → a = 0 ∧ 0 ≤ wrapInt b)
  | .rightShift, a, b => 0 ≤ b ∧ (63 < b → -2 ^ shiftBits b ≤ a ∧ a < 2 ^ shiftBits b)
  | _, _, _ => True

/-- With a larger operand, when all digits are read.  A quotient is rounded toward zero,
and counts are cast to an `int`. -/
def BinaryOp.HoldsShort : BinaryOp → ℤ → ℤ → Prop
  | .divide, a, b => b ≠ 0 → b ∣ a ∨ 0 ≤ a * b
  | .exponent, a, b => (b < 0 → a.natAbs ≠ 1) ∧ b < 2 ^ 31
  | .leftShift, _, b => b < 2 ^ 31
  | .rightShift, a, b =>
    0 ≤ b → b < 2 ^ 63 ∧ 0 ≤ wrapInt b ∧
      if b < 2 ^ 31 then 0 ≤ a ∨ 2 ^ b.toNat ∣ a
      else if 0 ≤ a then a < 2 ^ (wrapInt b).toNat
      else 2 ^ (wrapInt b).toNat ≤ -a ∧ -a < 2 * 2 ^ (wrapInt b).toNat
  | _, _, _ => True

/-- With an operand whose last digits are not read, the digits that are read have to give
the same result. -/
def BinaryOp.HoldsLong : BinaryOp → ℤ → ℤ → Prop
  | .divide, a, b => b ≠ 0 → (leadingDigits a).tdiv (leadingDigits b) = a.fdiv b
  | .exponent, _, b => b ≤ 0
  | .leftShift, _, b => b < 0
  | .rightShift, a, b =>
    0 ≤ b → b < 2 ^ 63 ∧ 0 ≤ wrapInt b ∧
      (leadingDigits a).tdiv (2 ^ (wrapInt b).toNat) = a.fdiv (2 ^ b.toNat)
  | op, a, b => op.exact (leadingDigits a) (leadingDigits b) = op.exact a b

def BinaryOp.AllShort : BinaryOp → ℤ → ℤ → Prop
  | .exponent, a, _ => Short a
  | .leftShift, a, _ => Short a
  | .rightShift, a, _ => Short a
  | _, a, b => Short a ∧ Short b

def Application.Holds (check : Bool) : Application → Prop
  | .unary _ a => Short a
  | .binary op a b =>
    (Wide a b → op.HoldsWide check a b) ∧ (¬ Wide a b → op.AllShort a b → op.HoldsShort a b) ∧
      (¬ Wide a b → ¬ op.AllShort a b → op.HoldsLong a b)

section Counts

variable {a b : ℤ}

theorem leadingDigits_short : leadingDigits a = a ↔ Short a := leadingDigits_eq_self

theorem wrapInt_lt (b : ℤ) : wrapInt b < 2 ^ 31 :=
  bmod_lt (x := b) (m := 2 ^ 32) (by norm_num)

theorem wrapInt_eq (h0 : 0 ≤ b) (h : b < 2 ^ 31) : wrapInt b = b := by
  refine wrapInt_of_fits h0 ?_
  rw [show cIntMax = 2147483647 by decide]
  omega

theorem counted_eq_value {f : ℕ → ℤ} {v : ℤ} :
    counted b f = some (some v) ↔
      (0 ≤ b ∧ b < 2 ^ 63) ∧ 0 ≤ wrapInt b ∧ f (wrapInt b).toNat = v := by
  rw [counted]
  split_ifs with hread hcast
  · simp only [some.injEq, hread, hcast, true_and, and_self]
  · simp only [hcast, false_and, and_false]
  · simp only [some.injEq, reduceCtorEq, hread, false_and]

theorem counted_eq_error {f : ℕ → ℤ} : counted b f = some none ↔ ¬ (0 ≤ b ∧ b < 2 ^ 63) := by
  rw [counted]
  split_ifs with hread hcast
  · simp only [some.injEq, reduceCtorEq, hread, and_self, not_true_eq_false]
  · simp only [hread, and_self, not_true_eq_false]
  · simp only [hread, not_false_eq_true]

theorem wrapInt_lt_self (h : 2 ^ 31 ≤ b) : (wrapInt b).toNat < b.toNat := by
  have := wrapInt_lt b
  omega

theorem mul_two_pow_inj {m n : ℕ} (h : m < n) : a * 2 ^ m = a * 2 ^ n ↔ a = 0 := by
  constructor
  · intro heq
    by_contra ha
    have hpow : ((2 : ℤ) ^ m).natAbs = ((2 : ℤ) ^ n).natAbs :=
      congrArg Int.natAbs (mul_left_cancel₀ ha heq)
    rw [natAbs_pow, natAbs_pow] at hpow
    exact absurd (Nat.pow_right_injective le_rfl hpow) h.ne
  · rintro rfl
    simp

theorem pow_ne_pow {m n : ℕ} (ha : 2 ≤ a.natAbs) (h : m < n) : a ^ m ≠ a ^ n := by
  intro heq
  have hpow := congrArg Int.natAbs heq
  rw [natAbs_pow, natAbs_pow] at hpow
  exact absurd (Nat.pow_right_injective ha hpow) h.ne

theorem counted_pow_iff (ha : 2 ≤ a.natAbs) (hb : 0 ≤ b) :
    (counted b fun n => a ^ n) = some (some (a ^ b.toNat)) ↔ b < 2 ^ 31 := by
  rw [counted_eq_value]
  constructor
  · rintro ⟨-, -, hpow⟩
    by_contra hlarge
    exact pow_ne_pow ha (wrapInt_lt_self (not_lt.mp hlarge)) hpow
  · intro hsmall
    rw [wrapInt_eq hb hsmall]
    exact ⟨⟨hb, by omega⟩, hb, rfl⟩

theorem counted_shift_iff (hb : 0 ≤ b) :
    (counted b fun n => a * 2 ^ n) = some (some (a * 2 ^ b.toNat)) ↔
      b < 2 ^ 31 ∨ a = 0 ∧ b < 2 ^ 63 ∧ 0 ≤ wrapInt b := by
  rw [counted_eq_value]
  by_cases hsmall : b < 2 ^ 31
  · rw [wrapInt_eq hb hsmall]
    exact iff_of_true ⟨⟨hb, by omega⟩, hb, rfl⟩ (.inl hsmall)
  · rw [mul_two_pow_inj (wrapInt_lt_self (not_lt.mp hsmall))]
    simp only [hb, true_and, hsmall, false_or]
    exact ⟨fun h => ⟨h.2.2, h.1, h.2.1⟩, fun h => ⟨h.2.1, h.2.2, h.1⟩⟩

theorem not_twosRange_pow (ha : 2 ≤ a.natAbs) (hb : 2 ^ 31 ≤ b) : ¬ TwosRange 64 (a ^ b.toNat) := by
  intro hrange
  have hlarge : 2 ^ 64 ≤ (a ^ b.toNat).natAbs := by
    rw [natAbs_pow]
    calc 2 ^ 64 ≤ 2 ^ b.toNat := Nat.pow_le_pow_right (by norm_num) (by omega)
      _ ≤ a.natAbs ^ b.toNat := Nat.pow_le_pow_left ha _
  rw [twosRange_wide] at hrange
  omega

theorem fdiv_eq_iff {q : ℤ} (hb : 0 < b) : a.fdiv b = q ↔ q * b ≤ a ∧ a < (q + 1) * b := by
  rw [Int.fdiv_eq_ediv_of_nonneg a hb.le, ← Int.le_ediv_iff_mul_le hb, ← Int.ediv_lt_iff_lt_mul hb]
  omega

end Counts

/-! ## Operands of less than 64 bits -/

section Ranges

open BinaryOp (HoldsLong HoldsShort HoldsWide big wide)

variable {check : Bool} {a b : ℤ}

theorem tested_iff {v : ℤ} :
    (if check ∧ ¬ TwosRange 64 v then none else some (some (wrap 64 v))).or
        (some (some v)) = some (some v) ↔ check = true ∨ TwosRange 64 v := by
  by_cases hrange : TwosRange 64 v
  · simp [hrange, wrap_eq_self hrange]
  · cases check with
    | true => simp [hrange]
    | false => simp [hrange, wrap_eq_self_iff (w := 63)]

theorem wide_exponent_iff (h : Wide a b) :
    (wide check .exponent a b).or (big .exponent a b) =
        some (BinaryOp.exact .exponent a b) ↔ HoldsWide check .exponent a b := by
  have ha64 := twosRange_of_natAbs h.1
  simp only [wide, big, BinaryOp.exact, HoldsWide, leadingDigits_eq_self_of_lt h.1]
  by_cases hb : 0 ≤ b
  · simp only [not_lt.mpr hb, hb, if_false, if_true, true_and]
    cases check with
    | false =>
      simp only [wideExponent_unchecked _ ha64, map_some, some_or,
        some.injEq, wrap_eq_self_iff, Bool.false_eq_true, if_false]
    | true =>
      simp only [if_true]
      cases hpow : wideExponent true a b.toNat with
      | some r =>
        obtain ⟨rfl, hrange⟩ := wideExponent_checked ha64 hpow
        refine iff_of_true rfl ?_
        by_contra hlarge
        rw [not_or, not_le, not_lt] at hlarge
        exact not_twosRange_pow hlarge.1 hlarge.2 hrange
      | none =>
        have ha : ¬ a.natAbs ≤ 1 := by
          intro ha
          obtain ⟨r, hr⟩ := wideExponent_unit b.toNat ha
          rw [hpow] at hr
          cases hr
        simp only [ha, false_or]
        exact counted_pow_iff (by omega) hb
  · simp only [not_le.mp hb, hb, if_false, if_true, false_and, iff_false, some_or]
    intro heq
    split_ifs at heq with hunit
    · have hpow := some.inj (some.inj heq)
      have ha : a ≠ 0 := by
        rintro rfl
        exact absurd hunit (by decide)
      exact pow_ne_zero _ ha hpow.symm
    · cases heq

theorem shiftBits_of_le (h0 : 0 ≤ b) (h : b ≤ 63) : shiftBits b = b.toNat := by
  rw [shiftBits, emod_eq_of_lt h0 (by omega)]

theorem wide_leftShift_iff (h : Wide a b) :
    (wide check .leftShift a b).or (big .leftShift a b) =
        some (BinaryOp.exact .leftShift a b) ↔ HoldsWide check .leftShift a b := by
  have hb63 : b < 2 ^ 63 := by
    have := h.2
    omega
  simp only [wide, big, BinaryOp.exact, HoldsWide, leadingDigits_eq_self_of_lt h.1]
  by_cases hneg : b < 0
  · rw [if_pos (.inr hneg), if_neg (not_le.mpr hneg), none_or]
    exact iff_of_true (counted_eq_error.mpr fun hb => absurd hb.1 (not_le.mpr hneg))
      ⟨fun h0 => absurd h0 (not_le.mpr hneg), fun hlarge => by omega⟩
  · rw [not_lt] at hneg
    rw [if_pos hneg]
    by_cases hlarge : 63 < b
    · rw [if_pos (.inl hlarge), none_or, counted_shift_iff hneg]
      simp only [hb63, true_and, not_le.mpr hlarge, false_imp_iff, imp_true_iff]
      rw [or_iff_not_imp_left, not_lt]
    · rw [if_neg (by omega), some_or, shiftBits_of_le hneg (not_lt.mp hlarge)]
      simp only [some.injEq, wrap_eq_self_iff]
      exact ⟨fun hrange => ⟨fun _ _ => hrange, fun hb => by omega⟩,
        fun hholds => hholds.1 hneg (not_lt.mp hlarge)⟩

theorem shiftRight_eq_fdiv_iff {m n : ℕ} (hlow : -2 ^ n ≤ a) (hhigh : a < 2 ^ n) :
    a >>> m = a.fdiv (2 ^ n) ↔ -2 ^ m ≤ a ∧ a < 2 ^ m := by
  have hm : (0 : ℤ) < 2 ^ m := by positivity
  have hn : (0 : ℤ) < 2 ^ n := by positivity
  have hshift : a >>> m = a.fdiv (2 ^ m) := by
    rw [shiftRight_eq_div_pow, Int.fdiv_eq_ediv_of_nonneg a hm.le]
    rfl
  rw [hshift]
  by_cases ha : 0 ≤ a
  · have hzero : a.fdiv (2 ^ n) = 0 := (fdiv_eq_iff hn).mpr (by omega)
    rw [hzero, fdiv_eq_iff hm]
    omega
  · have hsign : a.fdiv (2 ^ n) = -1 := (fdiv_eq_iff hn).mpr (by omega)
    rw [hsign, fdiv_eq_iff hm]
    omega

theorem wide_rightShift_iff (h : Wide a b) :
    (wide check .rightShift a b).or (big .rightShift a b) =
        some (BinaryOp.exact .rightShift a b) ↔ HoldsWide check .rightShift a b := by
  simp only [wide, BinaryOp.exact, HoldsWide, some_or]
  by_cases hb : 0 ≤ b
  · rw [if_pos hb, some.injEq, some.injEq]
    simp only [hb, true_and]
    by_cases hlarge : 63 < b
    · have hpow : (2 : ℤ) ^ 63 ≤ 2 ^ b.toNat := pow_le_pow_right₀ (by norm_num) (by omega)
      have ha := h.1
      rw [shiftRight_eq_fdiv_iff (by omega) (by omega)]
      simp only [hlarge, true_imp_iff]
    · refine iff_of_true ?_ fun h => absurd h hlarge
      rw [shiftBits_of_le hb (not_lt.mp hlarge), shiftRight_eq_div_pow,
        Int.fdiv_eq_ediv_of_nonneg a (by positivity)]
      rfl
  · rw [if_neg hb]
    exact iff_of_false (by simp) fun h => hb h.1

theorem outcome_wide_iff (op : BinaryOp) (h : Wide a b) :
    op.outcome check a b = some (op.exact a b) ↔ op.HoldsWide check a b := by
  have ha := leadingDigits_eq_self_of_lt h.1
  have hb := leadingDigits_eq_self_of_lt h.2
  rw [BinaryOp.outcome, if_pos h]
  cases op with
  | add =>
    simp only [wide, big, ha, hb]
    exact tested_iff
  | subtract =>
    simp only [wide, big, ha, hb]
    exact tested_iff
  | multiply =>
    simp only [wide, big, ha, hb]
    exact tested_iff
  | exponent => exact wide_exponent_iff h
  | leftShift => exact wide_leftShift_iff h
  | rightShift => exact wide_rightShift_iff h
  | _ => exact iff_of_true rfl trivial

/-! ## Larger operands -/

theorem outcome_big (op : BinaryOp) (h : ¬ Wide a b) : op.outcome check a b = op.big a b := by
  rw [BinaryOp.outcome, if_neg h]

theorem large_of_not_wide (h : ¬ Wide a b) (hlow : 0 ≤ b) (hb : b < 2 ^ 63) : 2 ≤ a.natAbs := by
  rw [Wide] at h
  omega

theorem short_exponent_iff (h : ¬ Wide a b) (ha : Short a) :
    big .exponent a b = some (BinaryOp.exact .exponent a b) ↔ HoldsShort .exponent a b := by
  simp only [big, BinaryOp.exact, HoldsShort, leadingDigits_short.mpr ha]
  by_cases hb : 0 ≤ b
  · rw [if_pos hb]
    simp only [not_lt.mpr hb, false_imp_iff, true_and]
    by_cases hlarge : b < 2 ^ 63
    · exact counted_pow_iff (large_of_not_wide h hb hlarge) hb
    · refine iff_of_false (fun heq => ?_) (by omega)
      exact hlarge (counted_eq_value.mp heq).1.2
  · rw [if_neg hb, counted_eq_error.mpr fun h => hb h.1]
    split_ifs with hunit
    · refine iff_of_false (by simp) fun hholds => hholds.1 (not_le.mp hb) hunit
    · exact iff_of_true rfl ⟨fun _ => hunit, by omega⟩

theorem short_leftShift_iff (h : ¬ Wide a b) (ha : Short a) :
    big .leftShift a b = some (BinaryOp.exact .leftShift a b) ↔ HoldsShort .leftShift a b := by
  simp only [big, BinaryOp.exact, HoldsShort, leadingDigits_short.mpr ha]
  by_cases hb : 0 ≤ b
  · rw [if_pos hb, counted_shift_iff hb]
    refine or_iff_left fun hzero => ?_
    have := large_of_not_wide h hb hzero.2.1
    rw [hzero.1] at this
    exact absurd this (by decide)
  · rw [if_neg hb]
    exact iff_of_true (counted_eq_error.mpr fun h => hb h.1) (by omega)

theorem natAbs_lt_two_pow {n : ℕ} (ha : Short a) (hn : 1698 ≤ n) : a.natAbs < 2 ^ n := by
  have hpow : 10 ^ fromStrDigits < 2 ^ 1698 := by decide +kernel
  exact (lt_trans ha hpow).trans_le (Nat.pow_le_pow_right (by norm_num) hn)

theorem short_rightShift_iff (ha : Short a) :
    big .rightShift a b = some (BinaryOp.exact .rightShift a b) ↔ HoldsShort .rightShift a b := by
  simp only [big, BinaryOp.exact, HoldsShort, leadingDigits_short.mpr ha]
  by_cases hb : 0 ≤ b
  · rw [if_pos hb, counted_eq_value]
    simp only [hb, true_and, true_imp_iff]
    refine and_congr_right fun _ => and_congr_right fun hcast => ?_
    by_cases hsmall : b < 2 ^ 31
    · have hpow : (2 : ℤ) ^ b.toNat ≠ 0 := by positivity
      have hnonneg : 0 ≤ a * 2 ^ b.toNat ↔ 0 ≤ a := mul_nonneg_iff_of_pos_right (by positivity)
      rw [if_pos hsmall, wrapInt_eq hb hsmall, tdiv_eq_fdiv_iff hpow, hnonneg, or_comm]
    · have hP : (0 : ℤ) < 2 ^ b.toNat := by positivity
      have hp : (0 : ℤ) < 2 ^ (wrapInt b).toNat := by positivity
      have hlt : a.natAbs < 2 ^ b.toNat := natAbs_lt_two_pow ha (by omega)
      have hcastPow : ((2 ^ b.toNat : ℕ) : ℤ) = 2 ^ b.toNat := by push_cast; rfl
      rw [if_neg hsmall]
      split_ifs with hsign
      · have hzero : a.fdiv (2 ^ b.toNat) = 0 := (fdiv_eq_iff hP).mpr (by omega)
        rw [hzero, tdiv_eq_ediv_of_nonneg hsign, ← Int.fdiv_eq_ediv_of_nonneg a hp.le,
          fdiv_eq_iff hp]
        omega
      · have hminus : a.fdiv (2 ^ b.toNat) = -1 := (fdiv_eq_iff hP).mpr (by omega)
        rw [hminus, ← neg_inj, ← Int.neg_tdiv, neg_neg,
          tdiv_eq_ediv_of_nonneg (by omega), ← Int.fdiv_eq_ediv_of_nonneg (-a) hp.le,
          fdiv_eq_iff hp]
        omega
  · rw [if_neg hb]
    exact iff_of_true (counted_eq_error.mpr fun h => hb h.1) fun h => absurd h hb

theorem outcome_short_iff (op : BinaryOp) (h : ¬ Wide a b) (hshort : op.AllShort a b) :
    op.outcome check a b = some (op.exact a b) ↔ op.HoldsShort a b := by
  rw [outcome_big op h]
  cases op with
  | exponent => exact short_exponent_iff h hshort
  | leftShift => exact short_leftShift_iff h hshort
  | rightShift => exact short_rightShift_iff hshort
  | divide =>
    simp only [big, BinaryOp.exact, HoldsShort,
      leadingDigits_short.mpr hshort.1, leadingDigits_short.mpr hshort.2]
    split_ifs with hb
    · exact iff_of_true rfl fun hne => absurd hb hne
    · rw [some.injEq, some.injEq, tdiv_eq_fdiv_iff hb]
      simp only [ne_eq, hb, not_false_eq_true, true_imp_iff]
  | _ =>
    refine iff_of_true ?_ trivial
    simp only [big, leadingDigits_short.mpr hshort.1, leadingDigits_short.mpr hshort.2]

theorem natAbs_leadingDigits_lt_self (ha : ¬ Short a) : (leadingDigits a).natAbs < a.natAbs := by
  have ha0 : a ≠ 0 := by
    rintro rfl
    exact ha (leadingDigits_short.mp (leadingDigits_eq_zero.mpr rfl))
  have hcut : (decimalDigits a.natAbs).length - fromStrDigits ≠ 0 := by
    intro hcut
    refine ha (leadingDigits_short.mp ?_)
    rw [leadingDigits, hcut, pow_zero, Int.tdiv_one]
  rw [leadingDigits, natAbs_tdiv, natAbs_pow]
  exact Nat.div_lt_self (natAbs_pos.mpr ha0) (Nat.one_lt_pow hcut (by decide))

theorem two_pow_le_of_not_short (ha : ¬ Short a) : 2 ^ 63 ≤ a.natAbs :=
  (natAbs_leadingDigits_ge (not_lt.mp ha)).trans (natAbs_leadingDigits_le a)

theorem pow_ne_pow_of_lt {c : ℤ} {m n : ℕ} (hc : c.natAbs < a.natAbs) (ha : 2 ≤ a.natAbs)
    (hmn : m ≤ n) (hn : 0 < n) : c ^ m ≠ a ^ n := by
  intro heq
  have hpow := congrArg Int.natAbs heq
  rw [natAbs_pow, natAbs_pow] at hpow
  rcases hmn.eq_or_lt with rfl | hlt
  · exact absurd hpow (Nat.pow_lt_pow_left hc hn.ne').ne
  · refine absurd hpow (ne_of_lt ?_)
    calc c.natAbs ^ m ≤ a.natAbs ^ m := Nat.pow_le_pow_left hc.le m
      _ < a.natAbs ^ n := Nat.pow_lt_pow_right (by omega) hlt

theorem wrapInt_le_self (hb : 0 ≤ b) : (wrapInt b).toNat ≤ b.toNat := by
  rcases lt_or_ge b (2 ^ 31) with hsmall | hlarge
  · rw [wrapInt_eq hb hsmall]
  · exact (wrapInt_lt_self hlarge).le

theorem long_exponent_iff (ha : ¬ Short a) :
    big .exponent a b = some (BinaryOp.exact .exponent a b) ↔ HoldsLong .exponent a b := by
  have hlarge := two_pow_le_of_not_short ha
  simp only [big, BinaryOp.exact, HoldsLong]
  rcases lt_trichotomy b 0 with hb | rfl | hb
  · rw [if_neg (not_le.mpr hb), if_neg (by omega),
      counted_eq_error.mpr fun h => absurd h.1 (not_le.mpr hb)]
    exact iff_of_true rfl hb.le
  · rw [if_pos le_rfl, counted_eq_value]
    refine iff_of_true ⟨by norm_num, le_rfl, ?_⟩ le_rfl
    rw [show (wrapInt 0).toNat = 0 by decide, toNat_zero, pow_zero, pow_zero]
  · rw [if_pos hb.le, counted_eq_value]
    refine iff_of_false (fun h => ?_) (not_le.mpr hb)
    exact pow_ne_pow_of_lt (natAbs_leadingDigits_lt_self ha) (by omega)
      (wrapInt_le_self hb.le) (by omega) h.2.2

theorem long_leftShift_iff (ha : ¬ Short a) :
    big .leftShift a b = some (BinaryOp.exact .leftShift a b) ↔ HoldsLong .leftShift a b := by
  simp only [big, BinaryOp.exact, HoldsLong]
  by_cases hb : 0 ≤ b
  · rw [if_pos hb, counted_eq_value]
    refine iff_of_false (fun h => ?_) (not_lt.mpr hb)
    have habs := congrArg Int.natAbs h.2.2
    rw [natAbs_mul, natAbs_mul, natAbs_pow, natAbs_pow] at habs
    refine absurd habs (ne_of_lt ?_)
    exact Nat.mul_lt_mul_of_lt_of_le (natAbs_leadingDigits_lt_self ha)
      (Nat.pow_le_pow_right (by decide) (wrapInt_le_self hb)) (by positivity)
  · rw [if_neg hb]
    exact iff_of_true (counted_eq_error.mpr fun h => hb h.1) (not_le.mp hb)

theorem long_rightShift_iff :
    big .rightShift a b = some (BinaryOp.exact .rightShift a b) ↔ HoldsLong .rightShift a b := by
  simp only [big, BinaryOp.exact, HoldsLong]
  by_cases hb : 0 ≤ b
  · rw [if_pos hb, counted_eq_value]
    simp only [hb, true_and, true_imp_iff]
  · rw [if_neg hb]
    exact iff_of_true (counted_eq_error.mpr fun h => hb h.1) fun h => absurd h hb

theorem outcome_long_iff (op : BinaryOp) (h : ¬ Wide a b) (hlong : ¬ op.AllShort a b) :
    op.outcome check a b = some (op.exact a b) ↔ op.HoldsLong a b := by
  rw [outcome_big op h]
  cases op with
  | exponent => exact long_exponent_iff hlong
  | leftShift => exact long_leftShift_iff hlong
  | rightShift => exact long_rightShift_iff
  | divide =>
    simp only [big, BinaryOp.exact, HoldsLong]
    split_ifs with hb
    · exact iff_of_true rfl fun hne => absurd hb hne
    · simp only [some.injEq, ne_eq, hb, not_false_eq_true, true_imp_iff]
  | _ => exact some_inj

end Ranges

theorem exact_unary_short (op : UnaryOp) (a : ℤ) :
    op.exact (leadingDigits a) = op.exact a ↔ Short a := by
  rw [← leadingDigits_short]
  cases op with
  | unaryMinus => exact neg_inj
  | bitwiseNot =>
    simp only [UnaryOp.exact, lnot_eq]
    omega

/-- The operators on integers return the exact result under the condition of their range
of operands, and only then. -/
theorem application_exact_iff (check : Bool) (x : Application) : x.Exact check ↔ x.Holds check := by
  cases x with
  | unary op a => exact exact_unary_iff.trans (exact_unary_short op a)
  | binary op a b =>
    rw [exact_binary_iff, Application.Holds]
    by_cases hwide : Wide a b
    · simp only [outcome_wide_iff op hwide, hwide, true_imp_iff, not_true_eq_false,
        false_imp_iff, and_true]
    · simp only [hwide, false_imp_iff, not_false_eq_true, true_imp_iff, true_and]
      by_cases hshort : op.AllShort a b
      · simp only [outcome_short_iff op hwide hshort, hshort, true_imp_iff,
          not_true_eq_false, false_imp_iff, and_true]
      · simp only [outcome_long_iff op hwide hshort, hshort, false_imp_iff,
          not_false_eq_true, true_imp_iff, true_and]

/-- `1 >> 64` is one, with or without the tests for overflow. -/
theorem rightShift_inexact : ¬ ∀ (check : Bool) (x : Application), x.Exact check := by
  intro h
  have hshift := exact_binary_iff.mp (h true (.binary .rightShift 1 64))
  revert hshift
  decide

end Th8.Expr
