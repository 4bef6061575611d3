import Th8.Expr.Arithmetic

/-!
# The exact results of the operators on integers

What an operator on integers should return, and what `evalOperator` makes of operands
given as decimal text.  `outcome` is the second as arithmetic: no text, and of the library
only what its documentation promises.
-/

namespace Th8.Expr

open Bigint Support

/-! ## Operators and their results -/

inductive UnaryOp where
  | unaryMinus | bitwiseNot
deriving DecidableEq

inductive BinaryOp where
  | add | subtract | multiply | divide | modulus | exponent
  | leftShift | rightShift
  | bitwiseAnd | bitwiseOr | bitwiseXor
  | lt | gt | le | ge | eq | ne
deriving DecidableEq

def UnaryOp.op : UnaryOp → Op
  | .unaryMinus => .unaryMinus
  | .bitwiseNot => .bitwiseNot

def BinaryOp.op : BinaryOp → Op
  | .add => .add
  | .subtract => .subtract
  | .multiply => .multiply
  | .divide => .divide
  | .modulus => .modulus
  | .exponent => .exponent
  | .leftShift => .leftShift
  | .rightShift => .rightShift
  | .bitwiseAnd => .bitwiseAnd
  | .bitwiseOr => .bitwiseOr
  | .bitwiseXor => .bitwiseXor
  | .lt => .lt
  | .gt => .gt
  | .le => .le
  | .ge => .ge
  | .eq => .eq
  | .ne => .ne

def indicator (b : Bool) : ℤ := if b then 1 else 0

def UnaryOp.exact : UnaryOp → ℤ → ℤ
  | .unaryMinus, a => -a
  | .bitwiseNot, a => Int.lnot a

/-- The mathematical result, if there is one.  Division by zero has none, nor has a
negative count of a shift, and of the powers with a negative exponent only those of one
and minus one are integers. -/
def BinaryOp.exact : BinaryOp → ℤ → ℤ → Option ℤ
  | .add, a, b => some (a + b)
  | .subtract, a, b => some (a - b)
  | .multiply, a, b => some (a * b)
  | .divide, a, b => if b = 0 then none else some (a.fdiv b)
  | .modulus, a, b => if b = 0 then none else some (a.fmod b)
  | .exponent, a, b =>
    if 0 ≤ b then some (a ^ b.toNat)
    else if a.natAbs = 1 then some (a ^ b.natAbs)
    else none
  | .leftShift, a, b => if 0 ≤ b then some (a * 2 ^ b.toNat) else none
  | .rightShift, a, b => if 0 ≤ b then some (a.fdiv (2 ^ b.toNat)) else none
  | .bitwiseAnd, a, b => some (Int.land a b)
  | .bitwiseOr, a, b => some (Int.lor a b)
  | .bitwiseXor, a, b => some (Int.xor a b)
  | .lt, a, b => some (indicator (a < b))
  | .gt, a, b => some (indicator (b < a))
  | .le, a, b => some (indicator (a ≤ b))
  | .ge, a, b => some (indicator (b ≤ a))
  | .eq, a, b => some (indicator (a = b))
  | .ne, a, b => some (indicator (a ≠ b))

inductive Application where
  | unary (op : UnaryOp) (a : ℤ)
  | binary (op : BinaryOp) (a b : ℤ)
deriving DecidableEq

def Application.exact : Application → Option ℤ
  | .unary op a => some (op.exact a)
  | .binary op a b => op.exact a b

def Application.eval (check : Bool) (mp : MpLib) (toBoolean : Bytes → Option Bool)
    (other : Op → Bytes → Option Bytes → Except Failure Bytes) :
    Application → Except Failure Bytes
  | .unary op a => evalOperator ⟨true, check⟩ mp toBoolean other op.op (decimal a) none
  | .binary op a b =>
    evalOperator ⟨true, check⟩ mp toBoolean other op.op (decimal a) (some (decimal b))

def ReturnsExactly (r : Except Failure Bytes) : Option ℤ → Prop
  | some v => r = .ok (decimal v)
  | none => ∃ e, r = .error e

def Application.Exact (check : Bool) (x : Application) : Prop :=
  ∀ mp : MpLib, mp.Exact → ∀ toBoolean other,
    ReturnsExactly (x.eval check mp toBoolean other) x.exact

theorem ReturnsExactly.unique {r : Except Failure Bytes} {v w : Option ℤ}
    (hv : ReturnsExactly r v) (hw : ReturnsExactly r w) : v = w := by
  cases v with
  | none =>
    obtain ⟨e, rfl⟩ := hv
    cases w with
    | none => rfl
    | some w => cases hw
  | some v =>
    cases w with
    | none =>
      obtain ⟨e, rfl⟩ := hw
      cases hv
    | some w => rw [decimal_injective (Except.ok.inj (hv.symm.trans hw))]

/-! ## What the library makes of the operands -/

/-- An operation with a count, which is read as a 64-bit integer and cast to an `int`.
Nothing is promised if the `int` is negative. -/
def counted (b : ℤ) (f : ℕ → ℤ) : Option (Option ℤ) :=
  if 0 ≤ b ∧ b < 2 ^ 63 then
    if 0 ≤ wrapInt b then some (some (f (wrapInt b).toNat)) else none
  else some none

/-- What every exact library makes of the operands: a result, an error, or `none` if its
documentation promises nothing. -/
def BinaryOp.big : BinaryOp → ℤ → ℤ → Option (Option ℤ)
  | .divide, a, b =>
    if b = 0 then some none else some (some ((leadingDigits a).tdiv (leadingDigits b)))
  | .exponent, a, b => counted b fun n => leadingDigits a ^ n
  | .leftShift, a, b => counted b fun n => leadingDigits a * 2 ^ n
  | .rightShift, a, b => counted b fun n => (leadingDigits a).tdiv (2 ^ n)
  | op, a, b => some (op.exact (leadingDigits a) (leadingDigits b))

variable {mp : MpLib}

theorem arithResult_some (hmp : mp.Exact) (c : ℤ) : arithResult mp (some c) = .ok (decimal c) := by
  rw [arithResult, expect_some, ok_bind, toResult_eq hmp]

variable {r : Option ℤ} {b : ℤ} {f : ℕ → ℤ}

theorem counted_spec (hmp : mp.Exact) {g : ℤ → Option ℤ}
    (hg : ∀ {c}, 0 ≤ c → g c = some (f c.toNat)) (negative : Failure) (h : counted b f = some r) :
    ReturnsExactly (do
      let c ← countOf negative (decimal b)
      arithResult mp (g c)) r := by
  rw [counted] at h
  rw [countOf_decimal]
  split_ifs at h with hread hcast
  · cases h
    rw [if_pos hread, ok_bind, hg hcast]
    exact arithResult_some hmp _
  · cases h
    rw [if_neg hread]
    exact ⟨negative, rfl⟩

theorem bigintArith_eq (hmp : mp.Exact) (a b : ℤ) (op : Op) :
    bigintArith mp (decimal a) (decimal b) op =
      arithSwitch mp (leadingDigits a) (leadingDigits b) (decimal b) op := by
  rw [bigintArith, fromStr_decimal hmp, fromStr_decimal hmp]
  rfl

theorem cmp_spec (hmp : mp.Exact) (a b : ℤ) :
    (mp.cmp a b == .lt) = decide (a < b) ∧ (mp.cmp a b == .gt) = decide (b < a) ∧
      (mp.cmp a b == .eq) = decide (a = b) := by
  rw [hmp.cmp]
  rcases lt_trichotomy a b with h | rfl | h
  · rw [compare_lt_iff_lt.mpr h]
    exact ⟨(decide_eq_true h).symm, (decide_eq_false h.asymm).symm, (decide_eq_false h.ne).symm⟩
  · rw [compare_eq_iff_eq.mpr rfl]
    exact ⟨(decide_eq_false (lt_irrefl a)).symm, (decide_eq_false (lt_irrefl a)).symm,
      (decide_eq_true rfl).symm⟩
  · rw [compare_gt_iff_gt.mpr h]
    exact ⟨(decide_eq_false h.asymm).symm, (decide_eq_true h).symm, (decide_eq_false h.ne').symm⟩

variable {op : BinaryOp} {a : ℤ}

/-- What is promised is returned. -/
theorem bigintArith_spec (hmp : mp.Exact) (h : op.big a b = some r) :
    ReturnsExactly (bigintArith mp (decimal a) (decimal b) op.op) r := by
  rw [bigintArith_eq hmp]
  have hzero : mp.iszero (leadingDigits b) = decide (b = 0) := by
    rw [hmp.iszero, decide_eq_decide, leadingDigits_eq_zero]
  obtain ⟨hlt, hgt, heq⟩ := cmp_spec hmp (leadingDigits a) (leadingDigits b)
  cases op with
  | add =>
    cases h
    simp only [BinaryOp.op, arithSwitch, hmp.add, arithResult_some hmp]
    rfl
  | subtract =>
    cases h
    simp only [BinaryOp.op, arithSwitch, hmp.sub, arithResult_some hmp]
    rfl
  | multiply =>
    cases h
    simp only [BinaryOp.op, arithSwitch, hmp.mul, arithResult_some hmp]
    rfl
  | divide =>
    simp only [BinaryOp.op, arithSwitch, hzero, decide_eq_true_eq]
    simp only [BinaryOp.big] at h
    split_ifs at h ⊢ with hb
    · cases h
      exact ⟨divideByZero, rfl⟩
    · cases h
      rw [hmp.div (leadingDigits_eq_zero.not.mpr hb), arithResult_some hmp]
      rfl
  | modulus =>
    simp only [BinaryOp.op, arithSwitch, hzero, decide_eq_true_eq]
    simp only [BinaryOp.big, BinaryOp.exact, leadingDigits_eq_zero] at h
    split_ifs at h ⊢ with hb
    · cases h
      exact ⟨divideByZero, rfl⟩
    · cases h
      rw [hmp.mod (leadingDigits_eq_zero.not.mpr hb), arithResult_some hmp]
      rfl
  | exponent =>
    exact counted_spec hmp (f := fun n => leadingDigits a ^ n) hmp.exptN negativeExponent h
  | leftShift =>
    exact counted_spec hmp (f := fun n => leadingDigits a * 2 ^ n) hmp.mul2d negativeShift h
  | rightShift =>
    exact counted_spec hmp (f := fun n => (leadingDigits a).tdiv (2 ^ n)) hmp.div2d negativeShift h
  | bitwiseAnd =>
    cases h
    simp only [BinaryOp.op, arithSwitch, hmp.and, arithResult_some hmp]
    rfl
  | bitwiseOr =>
    cases h
    simp only [BinaryOp.op, arithSwitch, hmp.or, arithResult_some hmp]
    rfl
  | bitwiseXor =>
    cases h
    simp only [BinaryOp.op, arithSwitch, hmp.xor, arithResult_some hmp]
    rfl
  | lt =>
    cases h
    simp only [BinaryOp.op, arithSwitch, hlt]
    rfl
  | gt =>
    cases h
    simp only [BinaryOp.op, arithSwitch, hgt]
    rfl
  | le =>
    cases h
    simp only [BinaryOp.op, arithSwitch, bne, hgt, ← decide_not, not_lt]
    rfl
  | ge =>
    cases h
    simp only [BinaryOp.op, arithSwitch, bne, hlt, ← decide_not, not_lt]
    rfl
  | eq =>
    cases h
    simp only [BinaryOp.op, arithSwitch, heq]
    rfl
  | ne =>
    cases h
    simp only [BinaryOp.op, arithSwitch, bne, heq, ← decide_not]
    rfl

theorem counted_eq_none : counted b f = none ↔ (0 ≤ b ∧ b < 2 ^ 63) ∧ wrapInt b < 0 := by
  rw [counted]
  split_ifs with hread hcast
  · exact iff_of_false (by simp) fun h => absurd hcast (not_le.mpr h.2)
  · exact iff_of_true rfl ⟨hread, not_le.mp hcast⟩
  · exact iff_of_false (by simp) fun h => hread h.1

theorem counted_refused {g : ℤ → Option ℤ} (hg : ∀ {c}, c < 0 → g c = none) (negative : Failure)
    (h : counted b f = none) :
    (∃ e, (do
      let c ← countOf negative (decimal b)
      arithResult referenceLib (g c)) = .error e) ∧ 0 ≤ b := by
  obtain ⟨hread, hneg⟩ := counted_eq_none.mp h
  rw [countOf_decimal, if_pos hread, ok_bind, hg hneg]
  exact ⟨⟨_, rfl⟩, hread.1⟩

theorem bigintArith_unpromised (h : op.big a b = none) :
    (∃ e, bigintArith referenceLib (decimal a) (decimal b) op.op = .error e) ∧
      op.exact a b ≠ none := by
  rw [bigintArith_eq referenceLib_exact]
  cases op with
  | exponent =>
    obtain ⟨hrefused, hb⟩ := counted_refused (f := fun n => leadingDigits a ^ n)
      (g := referenceLib.exptN (leadingDigits a)) (fun hc => if_pos hc) negativeExponent h
    exact ⟨hrefused, by simp [BinaryOp.exact, hb]⟩
  | leftShift =>
    obtain ⟨hrefused, hb⟩ := counted_refused (f := fun n => leadingDigits a * 2 ^ n)
      (g := referenceLib.mul2d (leadingDigits a)) (fun hc => if_pos hc) negativeShift h
    exact ⟨hrefused, by simp [BinaryOp.exact, hb]⟩
  | rightShift =>
    obtain ⟨hrefused, hb⟩ := counted_refused (f := fun n => (leadingDigits a).tdiv (2 ^ n))
      (g := referenceLib.div2d (leadingDigits a)) (fun hc => if_pos hc) negativeShift h
    exact ⟨hrefused, by simp [BinaryOp.exact, hb]⟩
  | divide =>
    simp only [BinaryOp.big] at h
    split_ifs at h
  | _ => cases h

theorem bigintUnary_spec (hmp : mp.Exact) (op : UnaryOp) (a : ℤ) :
    bigintUnary mp (decimal a) op.op = .ok (decimal (op.exact (leadingDigits a))) := by
  rw [bigintUnary, fromStr_decimal hmp]
  cases op with
  | unaryMinus =>
    simp only [expect_some, ok_bind, UnaryOp.op, hmp.neg, unaryResult, toResult_eq hmp]
    rfl
  | bitwiseNot =>
    simp only [expect_some, ok_bind, UnaryOp.op, hmp.complement, unaryResult, toResult_eq hmp]
    rfl

/-! ## What the 64-bit path makes of the operands -/

/-- The result of the 64-bit path with the big-integer path behind it, or `none` where the
operands are handed over. -/
def BinaryOp.wide (check : Bool) : BinaryOp → ℤ → ℤ → Option (Option ℤ)
  | .add, a, b =>
    if check ∧ ¬ TwosRange 64 (a + b) then none else some (some (wrap 64 (a + b)))
  | .subtract, a, b =>
    if check ∧ ¬ TwosRange 64 (a - b) then none else some (some (wrap 64 (a - b)))
  | .multiply, a, b =>
    if check ∧ ¬ TwosRange 64 (a * b) then none else some (some (wrap 64 (a * b)))
  | .exponent, a, b =>
    if b < 0 then some (some 0) else (wideExponent check a b.toNat).map some
  | .leftShift, a, b =>
    if 63 < b ∨ b < 0 then none else some (some (wrap 64 (a * 2 ^ shiftBits b)))
  | .rightShift, a, b => some (some (a >>> shiftBits b))
  | op, a, b => some (op.exact a b)

def Wide (a b : ℤ) : Prop := a.natAbs < 2 ^ 63 ∧ b.natAbs < 2 ^ 63

instance (a b : ℤ) : Decidable (Wide a b) := inferInstanceAs (Decidable (_ ∧ _))

/-- What the switch makes of the operands, `big` standing for the library. -/
def Continues (big r : Except Failure Bytes) : Option (Option ℤ) → Prop
  | none => r = big
  | some v => ReturnsExactly r v

theorem twosRange_of_natAbs {v : ℤ} (h : v.natAbs < 2 ^ 63) : TwosRange 64 v := by
  rw [twosRange_wide]
  omega

theorem twosRange_fdiv (ha : a.natAbs < 2 ^ 63) (hb : b ≠ 0) : TwosRange 64 (a.fdiv b) := by
  have hle : (a.tdiv b).natAbs ≤ a.natAbs := by
    rw [Int.natAbs_tdiv]
    exact Nat.div_le_self _ _
  rw [twosRange_wide, fdiv_eq hb]
  split_ifs <;> omega

theorem wideSwitch_spec (check : Bool) (big : Except Failure Bytes) (op : BinaryOp) (h : Wide a b) :
    Continues big (wideSwitch ⟨true, check⟩ big a b op.op) (op.wide check a b) := by
  obtain ⟨ha, hb⟩ := h
  have ha64 := twosRange_of_natAbs ha
  have hb64 := twosRange_of_natAbs hb
  cases op with
  | add =>
    simp only [BinaryOp.op, wideSwitch, BinaryOp.wide, addOverflows_iff ha64 hb64]
    split_ifs
    · rfl
    · rfl
  | subtract =>
    simp only [BinaryOp.op, wideSwitch, BinaryOp.wide, subOverflows_iff ha64 hb64]
    split_ifs
    · rfl
    · rfl
  | multiply =>
    simp only [BinaryOp.op, wideSwitch, BinaryOp.wide, mulOverflows_iff]
    split_ifs
    · rfl
    · rfl
  | divide =>
    simp only [BinaryOp.op, wideSwitch, BinaryOp.wide, BinaryOp.exact]
    split_ifs with h0 hmin
    · exact ⟨divideByZero, rfl⟩
    · rw [hmin.2.1] at ha
      exact absurd ha (by decide)
    · rw [wideDivide_eq ha64 hb64 h0, wrap_eq_self (twosRange_fdiv ha h0)]
      rfl
  | modulus =>
    simp only [BinaryOp.op, wideSwitch, BinaryOp.wide, BinaryOp.exact]
    split_ifs with h0
    · exact ⟨divideByZero, rfl⟩
    · rw [wideModulus_eq hb64 h0]
      rfl
  | exponent =>
    simp only [BinaryOp.op, wideSwitch, BinaryOp.wide]
    split_ifs
    · rfl
    · cases wideExponent check a b.toNat with
      | none => rfl
      | some r => rfl
  | leftShift =>
    simp only [BinaryOp.op, wideSwitch, BinaryOp.wide, true_and]
    split_ifs
    · rfl
    · rfl
  | rightShift => rfl
  | bitwiseAnd =>
    simp only [BinaryOp.op, wideSwitch, wideAnd_eq ha64 hb64]
    rfl
  | bitwiseOr =>
    simp only [BinaryOp.op, wideSwitch, wideOr_eq ha64 hb64]
    rfl
  | bitwiseXor =>
    simp only [BinaryOp.op, wideSwitch, wideXor_eq ha64 hb64]
    rfl
  | _ => rfl

theorem wideSwitch_unary (check : Bool) (big : Except Failure Bytes) (op : UnaryOp)
    (ha : a.natAbs < 2 ^ 63) :
    wideSwitch ⟨true, check⟩ big a 0 op.op = .ok (decimal (op.exact a)) := by
  cases op with
  | unaryMinus =>
    have hmin : a ≠ int64Min := by
      rintro rfl
      exact absurd ha (by decide)
    simp only [UnaryOp.op, wideSwitch, hmin, and_false, if_false, UnaryOp.exact]
    rw [wrap_eq_self (twosRange_of_natAbs (by rwa [Int.natAbs_neg]))]
  | bitwiseNot =>
    simp only [UnaryOp.op, wideSwitch, wideNot_eq (twosRange_of_natAbs ha)]
    rfl

/-! ## The whole evaluation -/

/-- What the evaluation makes of the operands, `none` where it depends on what the
library does beyond its documentation. -/
def BinaryOp.outcome (check : Bool) (op : BinaryOp) (a b : ℤ) : Option (Option ℤ) :=
  if Wide a b then (op.wide check a b).or (op.big a b) else op.big a b

theorem isInteger_decimal (hmp : mp.Exact) (check : Bool) (v : ℤ) :
    isInteger ⟨true, check⟩ mp (decimal v) = true := by
  rw [isInteger, isBigint_decimal hmp]
  by_cases hv : v.natAbs < 2 ^ 63
  · rw [parseWideInt_decimal hv]
    simp [Except.toOption]
  · simp only [decide_eq_true (not_lt.mp hv), Bool.and_self, Bool.true_or]

theorem convertLeft_decimal (toBoolean : Bytes → Option Bool) (op : Op) {v : ℤ}
    (hv : v.natAbs < 2 ^ 63) : convertLeft toBoolean op (decimal v) = .ok v := by
  rw [convertLeft, parseWideInt_decimal hv]

theorem evalOperator_integer (hmp : mp.Exact) (check : Bool) (toBoolean : Bytes → Option Bool)
    (other : Op → Bytes → Option Bytes → Except Failure Bytes) {op : Op}
    (hop : eArgType op = .number ∨ eArgType op = .integer) (a : ℤ) {zRight : Option Bytes}
    (hright : ∀ z ∈ zRight, ∃ b, z = decimal b) :
    evalOperator ⟨true, check⟩ mp toBoolean other op (decimal a) zRight =
      integerOperator ⟨true, check⟩ mp toBoolean op (decimal a) zRight := by
  have hall : zRight.all (isInteger ⟨true, check⟩ mp) = true := by
    rw [Option.all_eq_true]
    intro z hz
    obtain ⟨b, rfl⟩ := hright z hz
    exact isInteger_decimal hmp check b
  rcases hop with hop | hop
  · rw [evalOperator, hop]
    simp only [isInteger_decimal hmp, hall, Bool.and_self, if_true]
  · rw [evalOperator, hop]

theorem BinaryOp.isIntegerOp (op : BinaryOp) :
    eArgType op.op = .number ∨ eArgType op.op = .integer := by
  cases op <;> decide

theorem UnaryOp.isIntegerOp (op : UnaryOp) :
    eArgType op.op = .number ∨ eArgType op.op = .integer := by
  cases op <;> decide

theorem bigOperator_binary (mp : MpLib) (op : BinaryOp) (zLeft zRight : Bytes) :
    bigOperator mp op.op zLeft (some zRight) = bigintArith mp zLeft zRight op.op := by
  cases op <;> rfl

theorem bigOperator_unary (mp : MpLib) (op : UnaryOp) (zLeft : Bytes) :
    bigOperator mp op.op zLeft none = bigintUnary mp zLeft op.op := by
  cases op <;> rfl

theorem eval_binary (hmp : mp.Exact) (check : Bool) (toBoolean : Bytes → Option Bool)
    (other : Op → Bytes → Option Bytes → Except Failure Bytes) (op : BinaryOp) (a b : ℤ) :
    (Application.binary op a b).eval check mp toBoolean other =
      if Wide a b then
        wideSwitch ⟨true, check⟩ (bigintArith mp (decimal a) (decimal b) op.op) a b op.op
      else bigintArith mp (decimal a) (decimal b) op.op := by
  rw [Application.eval, evalOperator_integer hmp check toBoolean other op.isIntegerOp a
    (by rintro z ⟨⟩; exact ⟨b, rfl⟩), integerOperator, bigOperator_binary, Option.any_some,
    isBigint_decimal hmp, isBigint_decimal hmp]
  by_cases hwide : Wide a b
  · have ha : ¬ 2 ^ 63 ≤ a.natAbs := not_le.mpr hwide.1
    have hb : ¬ 2 ^ 63 ≤ b.natAbs := not_le.mpr hwide.2
    rw [if_pos hwide]
    simp only [ha, hb, decide_false, Bool.or_self, Bool.and_false, Bool.false_eq_true,
      if_false, convertLeft_decimal toBoolean op.op hwide.1, ok_bind, convertRight,
      parseWideInt_decimal hwide.2]
  · rw [if_neg hwide, if_pos]
    simp only [Bool.true_and, Bool.or_eq_true, decide_eq_true_eq]
    rw [Wide] at hwide
    omega

theorem eval_unary (hmp : mp.Exact) (check : Bool) (toBoolean : Bytes → Option Bool)
    (other : Op → Bytes → Option Bytes → Except Failure Bytes) (op : UnaryOp) (a : ℤ) :
    (Application.unary op a).eval check mp toBoolean other =
      .ok (decimal (op.exact (leadingDigits a))) := by
  rw [Application.eval, evalOperator_integer hmp check toBoolean other op.isIntegerOp a
    (by rintro z ⟨⟩), integerOperator, bigOperator_unary, isBigint_decimal hmp,
    bigintUnary_spec hmp]
  by_cases hwide : a.natAbs < 2 ^ 63
  · simp only [not_le.mpr hwide, decide_false, Option.any_none, Bool.or_self, Bool.and_false,
      Bool.false_eq_true, if_false, convertLeft_decimal toBoolean op.op hwide, ok_bind,
      convertRight, wideSwitch_unary check _ op hwide, leadingDigits_eq_self_of_lt hwide]
  · simp only [decide_eq_true (not_lt.mp hwide), Bool.true_or, Bool.and_self, if_true]

variable {check : Bool}

theorem eval_outcome (hmp : mp.Exact) (toBoolean : Bytes → Option Bool)
    (other : Op → Bytes → Option Bytes → Except Failure Bytes) (h : op.outcome check a b = some r) :
    ReturnsExactly ((Application.binary op a b).eval check mp toBoolean other) r := by
  rw [eval_binary hmp]
  rw [BinaryOp.outcome] at h
  split_ifs at h ⊢ with hwide
  · have hswitch := wideSwitch_spec check (bigintArith mp (decimal a) (decimal b) op.op) op hwide
    cases hop : op.wide check a b with
    | none =>
      rw [hop] at h hswitch
      rw [show wideSwitch _ _ a b op.op = _ from hswitch]
      exact bigintArith_spec hmp h
    | some v =>
      rw [hop] at h hswitch
      exact Option.some.inj h ▸ hswitch
  · exact bigintArith_spec hmp h

theorem eval_refused (toBoolean : Bytes → Option Bool)
    (other : Op → Bytes → Option Bytes → Except Failure Bytes) (h : op.outcome check a b = none) :
    ¬ ReturnsExactly ((Application.binary op a b).eval check referenceLib toBoolean other)
      (op.exact a b) := by
  have hbig : op.big a b = none ∧ (Application.binary op a b).eval check referenceLib
      toBoolean other = bigintArith referenceLib (decimal a) (decimal b) op.op := by
    rw [eval_binary referenceLib_exact]
    rw [BinaryOp.outcome] at h
    split_ifs at h ⊢ with hwide
    · have hswitch := wideSwitch_spec check
        (bigintArith referenceLib (decimal a) (decimal b) op.op) op hwide
      cases hop : op.wide check a b with
      | none =>
        rw [hop] at h hswitch
        exact ⟨h, hswitch⟩
      | some v =>
        rw [hop] at h
        cases h
    · exact ⟨h, rfl⟩
  obtain ⟨⟨e, he⟩, hexact⟩ := bigintArith_unpromised hbig.1
  rw [hbig.2, he]
  cases hop : op.exact a b with
  | none => exact absurd hop hexact
  | some v => exact fun h => by cases h

theorem exact_binary_iff :
    (Application.binary op a b).Exact check ↔ op.outcome check a b = some (op.exact a b) := by
  constructor
  · intro h
    have hreference := h referenceLib referenceLib_exact (fun _ => none)
      (fun _ _ _ => .error .silent)
    cases hop : op.outcome check a b with
    | none => exact absurd hreference (eval_refused _ _ hop)
    | some r =>
      rw [(eval_outcome referenceLib_exact _ _ hop).unique hreference]
      rfl
  · exact fun h mp hmp toBoolean other => eval_outcome hmp toBoolean other h

theorem exact_unary_iff {op : UnaryOp} :
    (Application.unary op a).Exact check ↔ op.exact (leadingDigits a) = op.exact a := by
  constructor
  · intro h
    have hreference := h referenceLib referenceLib_exact (fun _ => none)
      (fun _ _ _ => .error .silent)
    rw [eval_unary referenceLib_exact] at hreference
    exact decimal_injective (Except.ok.inj hreference)
  · intro h mp hmp toBoolean other
    rw [eval_unary hmp, h]
    rfl

end Th8.Expr
