import Th8.Bigint.Library
import Th8.Expr.MakeTree

/-!
# Operators on integers of any size

`th8IsBigint` tells which operands are beyond 64 bits, `th8BigintArith` and
`th8BigintUnary` perform an operator with the library.  The count of a shift and the
exponent are read as 64-bit integers and then cast to an `int`.
-/

namespace Th8.Bigint

open Expr Support

/-! ## The source functions -/

def isBigint (mp : MpLib) (z : Bytes) : Bool :=
  match fromStr mp z with
  | none => false
  | some a => 63 < mp.countBits a

def negativeShift : Failure := .static "negative shift count"

def negativeExponent : Failure := .static "negative exponent"

def divideByZero : Failure := .static "divide by zero"

def countOf (negative : Failure) (zRight : Bytes) : Except Failure ℤ :=
  match parseWideInt zRight with
  | .error _ => .error negative
  | .ok count => if count < 0 then .error negative else .ok (wrapInt count)

/-- The end of `th8BigintArith`. -/
def arithResult (mp : MpLib) (c : Option ℤ) : Except Failure Bytes := do
  let c ← expect (.static "bigint arithmetic error") c
  toResult mp c

/-- `Th8_SetResultInt` of a truth value. -/
def truth (b : Bool) : Bytes := decimal (if b then 1 else 0)

/-- The switch of `th8BigintArith` over the operators. -/
def arithSwitch (mp : MpLib) (a b : ℤ) (zRight : Bytes) : Op → Except Failure Bytes
  | .add => arithResult mp (mp.add a b)
  | .subtract => arithResult mp (mp.sub a b)
  | .multiply => arithResult mp (mp.mul a b)
  | .divide => if mp.iszero b then .error divideByZero else arithResult mp (mp.div a b)
  | .modulus => if mp.iszero b then .error divideByZero else arithResult mp (mp.mod a b)
  | .leftShift => do
    let shift ← countOf negativeShift zRight
    arithResult mp (mp.mul2d a shift)
  | .rightShift => do
    let shift ← countOf negativeShift zRight
    arithResult mp (mp.div2d a shift)
  | .bitwiseAnd => arithResult mp (mp.and a b)
  | .bitwiseOr => arithResult mp (mp.or a b)
  | .bitwiseXor => arithResult mp (mp.xor a b)
  | .exponent => do
    let exp ← countOf negativeExponent zRight
    arithResult mp (mp.exptN a exp)
  | .lt => .ok (truth (mp.cmp a b == .lt))
  | .gt => .ok (truth (mp.cmp a b == .gt))
  | .le => .ok (truth (mp.cmp a b != .gt))
  | .ge => .ok (truth (mp.cmp a b != .lt))
  | .eq => .ok (truth (mp.cmp a b == .eq))
  | .ne => .ok (truth (mp.cmp a b != .eq))
  | _ => .error (.static "unsupported bigint operation")

def bigintArith (mp : MpLib) (zLeft zRight : Bytes) (eOp : Op) : Except Failure Bytes := do
  let badOperand := Failure.static "expected integer but got non-integer operand"
  let a ← expect badOperand (fromStr mp zLeft)
  let b ← expect badOperand (fromStr mp zRight)
  arithSwitch mp a b zRight eOp

/-- The end of `th8BigintUnary`. -/
def unaryResult (mp : MpLib) (c : Option ℤ) : Except Failure Bytes := do
  let c ← expect (.static "bigint unary error") c
  toResult mp c

def bigintUnary (mp : MpLib) (zVal : Bytes) (eOp : Op) : Except Failure Bytes := do
  let a ← expect (.static "expected integer") (fromStr mp zVal)
  match eOp with
  | .unaryMinus => unaryResult mp (mp.neg a)
  | .unaryPlus => unaryResult mp (some a)
  | .bitwiseNot => unaryResult mp (mp.complement a)
  | .logicalNot => unaryResult mp (some (if mp.iszero a then 1 else 0))
  | _ => .error (.static "unsupported bigint unary operation")

variable {v : ℤ}

theorem natAbs_leadingDigits_ge (h : 10 ^ fromStrDigits ≤ v.natAbs) :
    2 ^ 63 ≤ (leadingDigits v).natAbs := by
  have hlen : fromStrDigits < (decimalDigits v.natAbs).length := by
    rw [← not_le, length_decimalDigits_le (by decide)]
    exact not_lt.mpr h
  have hpow : 2 ^ 63 ≤ 10 ^ (fromStrDigits - 1) := by decide +kernel
  have hpos : 0 < fromStrDigits := by decide
  rw [leadingDigits, Int.natAbs_tdiv, Int.natAbs_pow]
  generalize fromStrDigits = k at hlen hpow hpos
  refine hpow.trans ((Nat.le_div_iff_mul_le (by positivity)).mpr ?_)
  have hlow : ¬ v.natAbs < 10 ^ ((decimalDigits v.natAbs).length - 1) := by
    rw [← length_decimalDigits_le (by omega)]
    omega
  calc 10 ^ (k - 1) * Int.natAbs 10 ^ ((decimalDigits v.natAbs).length - k)
      = 10 ^ ((decimalDigits v.natAbs).length - 1) := by
        rw [show Int.natAbs 10 = 10 from rfl, ← pow_add]
        congr 1
        omega
    _ ≤ v.natAbs := not_lt.mp hlow

theorem natAbs_leadingDigits_le (v : ℤ) : (leadingDigits v).natAbs ≤ v.natAbs := by
  rw [leadingDigits, Int.natAbs_tdiv]
  exact Nat.div_le_self _ _

theorem leadingDigits_eq_self_of_lt (h : v.natAbs < 2 ^ 63) : leadingDigits v = v :=
  leadingDigits_eq_self.mpr (h.trans (by decide +kernel))

theorem natAbs_leadingDigits_lt_iff : (leadingDigits v).natAbs < 2 ^ 63 ↔ v.natAbs < 2 ^ 63 := by
  refine ⟨fun h => ?_, fun h => (natAbs_leadingDigits_le v).trans_lt h⟩
  rcases lt_or_ge v.natAbs (10 ^ fromStrDigits) with hfits | hlong
  · exact leadingDigits_eq_self.mpr hfits ▸ h
  · exact absurd h (not_lt.mpr (natAbs_leadingDigits_ge hlong))

theorem leadingDigits_eq_zero : leadingDigits v = 0 ↔ v = 0 := by
  refine ⟨fun h => ?_, fun h => h ▸ leadingDigits_eq_self_of_lt (v := 0) (by norm_num)⟩
  have hlt : v.natAbs < 2 ^ 63 := natAbs_leadingDigits_lt_iff.mp (by rw [h]; norm_num)
  rwa [leadingDigits_eq_self_of_lt hlt] at h

theorem isBigint_decimal {mp : MpLib} (hmp : mp.Exact) (v : ℤ) :
    isBigint mp (decimal v) = decide (2 ^ 63 ≤ v.natAbs) := by
  simp only [isBigint, fromStr_decimal hmp, hmp.countBits, Nat.lt_size]
  rw [decide_eq_decide, ← not_lt, ← not_lt, natAbs_leadingDigits_lt_iff]

/-! ## What the 64-bit conversion makes of decimal digits -/

theorem detectBase_decimalDigits (n : ℕ) :
    detectBase (decimalDigits n) = (10, decimalDigits n) := by
  rcases hz : decimalDigits n with _ | ⟨c, _ | ⟨d, rest⟩⟩
  · rfl
  · rw [detectBase.eq_def]
    split
    · rename_i h
      cases (List.cons.inj h).2
    · rfl
  · have hc : c ≠ 0x30 := fun hc => by simpa using (decimalDigits_head hz).2.2 hc
    simp [detectBase, hc]

theorem takeSign_decimal_plain (v : ℤ) :
    takeSign (decimal v) = (decide (v < 0), decimalDigits v.natAbs) := by
  have hblank : (decimal v).dropWhile (fun c => c == 0x20 || c == 0x09) = decimal v := by
    rw [decimal]
    split_ifs
    · rfl
    · rcases hz : decimalDigits v.natAbs with _ | ⟨c, rest⟩
      · rfl
      · obtain ⟨hlo, -, -⟩ := decimalDigits_head hz
        have h1 : c ≠ 0x20 := by rintro rfl; exact absurd hlo (by decide)
        have h2 : c ≠ 0x09 := by rintro rfl; exact absurd hlo (by decide)
        simp [h1, h2]
  rw [← takeSign_decimal, hblank]

theorem parseWideInt_decimal_eq (v : ℤ) :
    parseWideInt (decimal v) =
      accumWide (.message "expected integer, got: \"" (decimal v)) (decide (v < 0)) 10 0
        (decimalDigits v.natAbs) := by
  have hne : decimalDigits v.natAbs ≠ [] := List.length_pos_iff.mp (length_decimalDigits_pos _)
  simp only [parseWideInt, takeSign_decimal_plain, detectBase_decimalDigits, hne, if_false]

theorem numeral_decimalDigits (n : ℕ) : numeral 10 0 (decimalDigits n) = some n := by
  have := numeral_take_decimalDigits n (length_decimalDigits_pos n)
  simpa using this

theorem signed_natAbs (v : ℤ) : signed (decide (v < 0)) v.natAbs = v := by
  rw [signed]
  by_cases hv : v < 0
  · simp only [hv, decide_true, if_true]
    omega
  · simp only [hv, decide_false, Bool.false_eq_true, if_false]
    omega

theorem parseWideInt_decimal (h : v.natAbs < 2 ^ 63) : parseWideInt (decimal v) = .ok v := by
  rw [parseWideInt_decimal_eq, accumWide_of_numeral (by norm_num)
    (numeral_decimalDigits v.natAbs) (by unfold int64Max; omega), signed_natAbs]

theorem accumWide_bounded {expected : Failure} {neg : Bool} {base val : ℕ} {z : Bytes}
    (hpos : 0 < base) (hbase : base ≤ int64Max) (hval : val ≤ int64Max)
    (h : accumWide expected neg base val z = .ok v) (hv : v ≠ -2 ^ 63) :
    v.natAbs ≤ int64Max := by
  induction z generalizing val with
  | nil =>
    rw [← Except.ok.inj h, signed]
    split_ifs <;> omega
  | cons c rest ih =>
    rw [accumWide] at h
    cases hc : hexDigit c with
    | none => simp [hc] at h
    | some digit =>
      simp only [hc] at h
      split_ifs at h with hdigit hroom hmin
      · exact absurd (Except.ok.inj h).symm hv
      · refine ih ?_ h
        have hle := (Nat.le_div_iff_mul_le hpos).mp (not_lt.mp hroom)
        omega

theorem eq_of_parseWideInt_decimal {w : ℤ} (h : 2 ^ 63 ≤ v.natAbs)
    (hw : parseWideInt (decimal v) = .ok w) : w = -2 ^ 63 := by
  by_contra hne
  rw [parseWideInt_decimal_eq] at hw
  have hbound := accumWide_bounded (by norm_num) (by decide) (by decide) hw hne
  obtain ⟨n, hn, rfl⟩ := numeral_of_accumWide hw hne
  rw [numeral_decimalDigits] at hn
  cases hn
  rw [signed_natAbs, int64Max] at hbound
  omega

theorem countOf_decimal (negative : Failure) (v : ℤ) :
    countOf negative (decimal v) =
      if 0 ≤ v ∧ v < 2 ^ 63 then .ok (wrapInt v) else .error negative := by
  rw [countOf]
  by_cases hwide : v.natAbs < 2 ^ 63
  · rw [parseWideInt_decimal hwide]
    dsimp only
    by_cases hneg : v < 0
    · rw [if_pos hneg, if_neg (by omega)]
    · rw [if_neg hneg, if_pos (by omega)]
  · rw [if_neg (by omega)]
    cases hparse : parseWideInt (decimal v) with
    | error e => rfl
    | ok w =>
      dsimp only
      rw [eq_of_parseWideInt_decimal (not_lt.mp hwide) hparse, if_pos (by norm_num)]

end Th8.Bigint
