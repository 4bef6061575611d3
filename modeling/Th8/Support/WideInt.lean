import Mathlib.Algebra.Group.Basic
import Mathlib.Data.Int.Bitwise
import Mathlib.Data.Nat.Bitwise
import Th8.Support.TwosComplement

/-!
# Integers of a fixed width

An operation on integers of `w` bits leaves the representative of its exact result modulo
`2 ^ w`.  Here is when this is the result itself, what the tests in front of an operation
say that divide an end of the range by an operand, what the bitwise operations do, and
powers by repeated squaring.
-/

namespace Support

open Option Int

/-- What `w` bits hold after an operation with the result `v`. -/
def wrap (w : ℕ) (v : ℤ) : ℤ := Int.bmod v (2 ^ w)

variable {w : ℕ}

theorem wrap_eq_self {v : ℤ} (h : TwosRange w v) : wrap w v = v := by
  obtain ⟨hlo, hhi⟩ := h
  refine bmod_eq_of_le_mul_two ?_ ?_
  · push_cast
    omega
  · push_cast
    omega

theorem twosRange_wrap (w : ℕ) (v : ℤ) : TwosRange (w + 1) (wrap (w + 1) v) := by
  have hlo := le_bmod (x := v) (m := 2 ^ (w + 1)) (by positivity)
  have hhi := bmod_lt (x := v) (m := 2 ^ (w + 1)) (by positivity)
  rw [TwosRange, wrap]
  push_cast at hlo hhi
  omega

theorem wrap_eq_self_iff {v : ℤ} : wrap (w + 1) v = v ↔ TwosRange (w + 1) v :=
  ⟨fun h => h ▸ twosRange_wrap w v, wrap_eq_self⟩

section Tests

variable {M a b : ℤ}

theorem tdiv_lt_iff_lt_mul (hM : 0 ≤ M) (hb : 0 < b) : M.tdiv b < a ↔ M < a * b := by
  rw [tdiv_eq_ediv_of_nonneg hM]
  exact Int.ediv_lt_iff_lt_mul hb

theorem lt_tdiv_iff_lt_mul_of_neg (hM : 0 ≤ M) (hb : b < 0) : a < M.tdiv b ↔ M < a * b := by
  have h := tdiv_lt_iff_lt_mul (a := -a) hM (neg_pos.mpr hb)
  rw [Int.tdiv_neg, neg_mul_neg] at h
  rw [← h]
  omega

theorem lt_tdiv_neg_iff_mul_lt (hM : 0 ≤ M) (hb : 0 < b) : a < (-M).tdiv b ↔ a * b < -M := by
  have h := tdiv_lt_iff_lt_mul (a := -a) hM hb
  rw [neg_mul] at h
  rw [Int.neg_tdiv, lt_neg, h]
  omega

theorem fdiv_eq (hb : b ≠ 0) :
    a.fdiv b = if ¬ b ∣ a ∧ a * b < 0 then a.tdiv b - 1 else a.tdiv b := by
  rw [fdiv_eq_tdiv]
  by_cases hdvd : b ∣ a
  · simp [hdvd]
  · have ha : a ≠ 0 := fun h => hdvd (h ▸ dvd_zero b)
    simp only [hdvd, if_false, not_false_eq_true, true_and]
    rcases lt_or_gt_of_ne ha with ha' | ha'
    · rcases lt_or_gt_of_ne hb with hb' | hb'
      · rw [if_neg (not_le.mpr ha'), if_neg (not_le.mpr hb'), sign_eq_neg_one_of_neg hb',
          if_neg (not_lt.mpr (mul_nonneg_of_nonpos_of_nonpos ha'.le hb'.le))]
        omega
      · rw [if_neg (not_le.mpr ha'), if_pos hb'.le, sign_eq_one_of_pos hb',
          if_pos (mul_neg_of_neg_of_pos ha' hb')]
    · rcases lt_or_gt_of_ne hb with hb' | hb'
      · rw [if_pos ha'.le, if_neg (not_le.mpr hb'), if_pos (mul_neg_of_pos_of_neg ha' hb')]
      · rw [if_pos ha'.le, if_pos hb'.le, if_neg (not_lt.mpr (mul_pos ha' hb').le), sub_zero]

theorem fmod_eq (hb : b ≠ 0) :
    a.fmod b = if ¬ b ∣ a ∧ a * b < 0 then a.tmod b + b else a.tmod b := by
  have hfloor := mul_fdiv_add_fmod a b
  have htrunc := mul_tdiv_add_tmod a b
  rw [fdiv_eq hb] at hfloor
  split_ifs at hfloor ⊢
  · rw [mul_sub, mul_one] at hfloor
    omega
  · omega

theorem tdiv_eq_fdiv_iff (hb : b ≠ 0) : a.tdiv b = a.fdiv b ↔ b ∣ a ∨ 0 ≤ a * b := by
  rw [fdiv_eq hb]
  split_ifs with h
  · exact iff_of_false (by omega) (not_or.mpr ⟨h.1, not_le.mpr h.2⟩)
  · rw [not_and_or, not_not, not_lt] at h
    exact iff_of_true rfl h

end Tests

theorem twosRange_natCast {n : ℕ} : TwosRange (w + 1) (n : ℤ) ↔ n < 2 ^ w := by
  have hpow : ((2 ^ w : ℕ) : ℤ) = 2 ^ w := by push_cast; rfl
  rw [twosRange_succ, ← hpow]
  omega

theorem twosRange_negSucc {n : ℕ} : TwosRange (w + 1) (Int.negSucc n) ↔ n < 2 ^ w := by
  have hpow : ((2 ^ w : ℕ) : ℤ) = 2 ^ w := by push_cast; rfl
  rw [twosRange_succ, ← hpow, negSucc_eq]
  omega

variable {a b : ℤ}

theorem twosRange_bitwise (f : Bool → Bool → Bool) (ha : TwosRange (w + 1) a)
    (hb : TwosRange (w + 1) b) :
    TwosRange (w + 1) (Int.bitwise f a b) := by
  have hnat {g : Bool → Bool → Bool} {m n : ℕ} (hm : m < 2 ^ w) (hn : n < 2 ^ w) :
      TwosRange (w + 1) (Int.natBitwise g m n) := by
    rw [Int.natBitwise]
    cases g false false with
    | false => exact twosRange_natCast.mpr (Nat.bitwise_lt_two_pow hm hn)
    | true => exact twosRange_negSucc.mpr (Nat.bitwise_lt_two_pow hm hn)
  cases a with
  | ofNat m =>
    cases b with
    | ofNat n => exact hnat (twosRange_natCast.mp ha) (twosRange_natCast.mp hb)
    | negSucc n =>
      exact hnat (g := fun x y => f x !y) (twosRange_natCast.mp ha) (twosRange_negSucc.mp hb)
  | negSucc m =>
    cases b with
    | ofNat n =>
      exact hnat (g := fun x y => f (!x) y) (twosRange_negSucc.mp ha) (twosRange_natCast.mp hb)
    | negSucc n =>
      exact hnat (g := fun x y => f (!x) !y) (twosRange_negSucc.mp ha) (twosRange_negSucc.mp hb)

theorem getLsbD_ofInt (w i : ℕ) (a : ℤ) :
    (BitVec.ofInt w a).getLsbD i = (decide (i < w) && a.testBit i) := by
  cases a with
  | ofNat n =>
    rw [ofNat_eq_natCast, BitVec.ofInt_natCast, BitVec.getLsbD_ofNat]
    rfl
  | negSucc n =>
    rw [BitVec.ofInt_negSucc_eq_not_ofNat, BitVec.getLsbD_not, BitVec.getLsbD_ofNat]
    by_cases hi : i < w
    · simp [hi, Int.testBit]
    · simp [hi]

theorem toInt_bitwise {f : Bool → Bool → Bool}
    {g : BitVec (w + 1) → BitVec (w + 1) → BitVec (w + 1)}
    (hg : ∀ x y i, i < w + 1 → (g x y).getLsbD i = f (x.getLsbD i) (y.getLsbD i))
    (ha : TwosRange (w + 1) a) (hb : TwosRange (w + 1) b) :
    (g (BitVec.ofInt (w + 1) a) (BitVec.ofInt (w + 1) b)).toInt = Int.bitwise f a b := by
  have hbits : g (BitVec.ofInt (w + 1) a) (BitVec.ofInt (w + 1) b) =
      BitVec.ofInt (w + 1) (Int.bitwise f a b) := by
    refine BitVec.eq_of_getLsbD_eq fun i hi => ?_
    simp only [hg _ _ i hi, getLsbD_ofInt, testBit_bitwise, hi, decide_true, Bool.true_and]
  rw [hbits, BitVec.toInt_ofInt]
  exact wrap_eq_self (twosRange_bitwise f ha hb)

theorem xor_neg_iff : Int.xor a b < 0 ↔ a < 0 ∧ 0 ≤ b ∨ 0 ≤ a ∧ b < 0 := by
  cases a with
  | ofNat m =>
    cases b with
    | ofNat n => simp [Int.xor, not_lt.mpr (natCast_nonneg _)]
    | negSucc n => simp [Int.xor, negSucc_lt_zero]
  | negSucc m =>
    cases b with
    | ofNat n => simp [Int.xor, negSucc_lt_zero]
    | negSucc n => simp [Int.xor, negSucc_lt_zero]

theorem lnot_eq (a : ℤ) : Int.lnot a = -a - 1 := by
  cases a with
  | ofNat m => rw [Int.lnot, negSucc_eq, ofNat_eq_natCast, neg_add, sub_eq_add_neg]
  | negSucc m => rw [Int.lnot, negSucc_eq, neg_neg, add_sub_cancel_right]

theorem bitwise_not (a : ℤ) : Int.bitwise (fun x _ => !x) a 0 = Int.lnot a := by
  cases a with
  | ofNat m =>
    have h : Int.bitwise (fun x _ => !x) (Int.ofNat m) 0 = Int.natBitwise (fun x _ => !x) m 0 := rfl
    rw [h]
    simp [Int.natBitwise, Int.lnot]
  | negSucc m =>
    have h : Int.bitwise (fun x _ => !x) (Int.negSucc m) 0 =
        Int.natBitwise (fun x _ => !(!x)) m 0 := rfl
    rw [h]
    simp [Int.natBitwise, Int.lnot]

/-! ## Powers by repeated squaring -/

section Power

variable {α M : Type} [Monoid M]

def powLoop (mul : α → α → Option α) (square : α → Option α) (base : α) (exp : ℕ)
    (result : α) : Option α :=
  if exp = 0 then some result
  else
    match if exp % 2 = 1 then mul result base else some result with
    | none => none
    | some result' =>
      match if 1 < exp then square base else some base with
      | none => none
      | some base' => powLoop mul square base' (exp / 2) result'
termination_by exp

variable {mul : α → α → Option α} {square : α → Option α}

theorem powLoop_zero (base result : α) : powLoop mul square base 0 result = some result := by
  rw [powLoop, if_pos rfl]

variable {base result : α} {exp : ℕ}

theorem powLoop_pos (hexp : exp ≠ 0) :
    powLoop mul square base exp result =
      (if exp % 2 = 1 then mul result base else some result).bind fun result' =>
        (if 1 < exp then square base else some base).bind fun base' =>
          powLoop mul square base' (exp / 2) result' := by
  rw [powLoop, if_neg hexp]
  cases if exp % 2 = 1 then mul result base else some result with
  | none => rfl
  | some result' =>
    cases if 1 < exp then square base else some base with
    | none => rfl
    | some base' => rfl

theorem powLoop_eq_some {f : α → M} (hmul : ∀ x y z, mul x y = some z → f z = f x * f y)
    (hsquare : ∀ x z, square x = some z → f z = f x * f x) {r : α}
    (h : powLoop mul square base exp result = some r) :
    f r = f result * f base ^ exp := by
  induction exp using Nat.strong_induction_on generalizing base result with
  | _ exp ih =>
    by_cases hexp : exp = 0
    · subst hexp
      rw [powLoop_zero] at h
      rw [pow_zero, mul_one, some.inj h]
    · rw [powLoop_pos hexp] at h
      obtain ⟨result', hresult, h⟩ := bind_eq_some_iff.mp h
      obtain ⟨base', hbase, h⟩ := bind_eq_some_iff.mp h
      rw [ih (exp / 2) (Nat.div_lt_self (Nat.pos_of_ne_zero hexp) one_lt_two) h]
      have hodd : f result' = f result * f base ^ (exp % 2) := by
        split_ifs at hresult with hbit
        · rw [hbit, pow_one, hmul _ _ _ hresult]
        · rw [show exp % 2 = 0 by omega, pow_zero, mul_one, some.inj hresult]
      have heven : f base' ^ (exp / 2) = f base ^ (2 * (exp / 2)) := by
        split_ifs at hbase with hmore
        · rw [hsquare _ _ hbase, ← pow_two, ← pow_mul]
        · rw [show exp / 2 = 0 by omega, mul_zero, pow_zero, pow_zero]
      rw [hodd, heven, mul_assoc, ← pow_add, Nat.mod_add_div]

theorem powLoop_keeps {P : α → Prop} (hmul : ∀ x y z, P x → P y → mul x y = some z → P z)
    (hsquare : ∀ x z, P x → square x = some z → P z) {r : α} (hbase : P base) (hresult : P result)
    (h : powLoop mul square base exp result = some r) : P r := by
  induction exp using Nat.strong_induction_on generalizing base result with
  | _ exp ih =>
    by_cases hexp : exp = 0
    · subst hexp
      rw [powLoop_zero] at h
      exact some.inj h ▸ hresult
    · rw [powLoop_pos hexp] at h
      obtain ⟨result', hresult', h⟩ := bind_eq_some_iff.mp h
      obtain ⟨base', hbase', h⟩ := bind_eq_some_iff.mp h
      refine ih (exp / 2) (Nat.div_lt_self (Nat.pos_of_ne_zero hexp) one_lt_two) ?_ ?_ h
      · split_ifs at hbase'
        · exact hsquare _ _ hbase hbase'
        · exact some.inj hbase' ▸ hbase
      · split_ifs at hresult'
        · exact hmul _ _ _ hresult hbase hresult'
        · exact some.inj hresult' ▸ hresult

theorem powLoop_isSome {P : α → Prop} (hmul : ∀ x y, P x → P y → ∃ z, mul x y = some z ∧ P z)
    (hsquare : ∀ x, P x → ∃ z, square x = some z ∧ P z) (hbase : P base) (hresult : P result) :
    ∃ r, powLoop mul square base exp result = some r := by
  induction exp using Nat.strong_induction_on generalizing base result with
  | _ exp ih =>
    by_cases hexp : exp = 0
    · exact ⟨result, hexp ▸ powLoop_zero base result⟩
    · obtain ⟨result', hresult', hP⟩ :
          ∃ z, (if exp % 2 = 1 then mul result base else some result) = some z ∧ P z := by
        split_ifs
        · exact hmul _ _ hresult hbase
        · exact ⟨result, rfl, hresult⟩
      obtain ⟨base', hbase', hQ⟩ :
          ∃ z, (if 1 < exp then square base else some base) = some z ∧ P z := by
        split_ifs
        · exact hsquare _ hbase
        · exact ⟨base, rfl, hbase⟩
      rw [powLoop_pos hexp, hresult', bind_some, hbase', bind_some]
      exact ih (exp / 2) (Nat.div_lt_self (Nat.pos_of_ne_zero hexp) one_lt_two) hQ hP

end Power

end Support
