import Mathlib.Data.ZMod.Basic
import Th8.Bigint.Arith
import Th8.Support.WideInt

/-!
# Operators on integers

The part of `th8ExprEval` that performs an operator on the values of its operands, for
operands that are integers.  Integers of 64 bits have a path of their own, with tests for
overflow; what is larger, and what overflows, is handed over to the library.
-/

namespace Th8.Expr

open Bigint Support Int

/-! ## The source functions -/

structure Config where
  bigintEnabled : Bool
  bOverflowCheck : Bool

/-- The argument types of `th8Operators`. -/
inductive ArgType where
  | none | number | integer | string
deriving DecidableEq

/-- The column `eArgType` of `th8Operators`. -/
def eArgType : Op → ArgType
  | .openBracket | .closeBracket => .none
  | .unaryMinus | .unaryPlus => .number
  | .bitwiseNot | .logicalNot => .integer
  | .exponent => .number
  | .leftShift | .rightShift => .integer
  | .le | .ge | .eq | .ne => .number
  | .seq | .sne | .isIn | .ni => .string
  | .logicalAnd | .logicalOr => .number
  | .varAssign => .string
  | .multiply | .divide => .number
  | .modulus => .integer
  | .add | .subtract => .number
  | .lt | .gt => .number
  | .bitwiseAnd | .bitwiseXor | .bitwiseOr => .integer
  | .ternaryQ | .ternaryC => .number

def int64Min : ℤ := -2 ^ 63

def addOverflows (a b : ℤ) : Prop :=
  0 < b ∧ int64Max - b < a ∨ b < 0 ∧ a < int64Min - b

def subOverflows (a b : ℤ) : Prop :=
  b < 0 ∧ int64Max + b < a ∨ 0 < b ∧ a < int64Min + b

def mulOverflows (a b : ℤ) : Prop :=
  b ≠ 0 ∧
    (0 < a ∧ 0 < b ∧ (int64Max : ℤ).tdiv b < a ∨ a < 0 ∧ b < 0 ∧ a < (int64Max : ℤ).tdiv b ∨
      0 < a ∧ b < 0 ∧ b < int64Min.tdiv a ∨ a < 0 ∧ 0 < b ∧ a < int64Min.tdiv b)

def squareOverflows (a : ℤ) : Prop :=
  a ≠ 0 ∧ a ≠ 1 ∧ a ≠ -1 ∧ (0 < a ∧ (int64Max : ℤ).tdiv a < a ∨ a < 0 ∧ a < (int64Max : ℤ).tdiv a)

instance (a b : ℤ) : Decidable (addOverflows a b) := inferInstanceAs (Decidable (_ ∨ _))

instance (a b : ℤ) : Decidable (subOverflows a b) := inferInstanceAs (Decidable (_ ∨ _))

instance (a b : ℤ) : Decidable (mulOverflows a b) := inferInstanceAs (Decidable (_ ∧ _))

instance (a : ℤ) : Decidable (squareOverflows a) := inferInstanceAs (Decidable (_ ∧ _))

def wideAnd (a b : ℤ) : ℤ := (BitVec.ofInt 64 a &&& BitVec.ofInt 64 b).toInt

def wideOr (a b : ℤ) : ℤ := (BitVec.ofInt 64 a ||| BitVec.ofInt 64 b).toInt

def wideXor (a b : ℤ) : ℤ := (BitVec.ofInt 64 a ^^^ BitVec.ofInt 64 b).toInt

def wideNot (a : ℤ) : ℤ := (~~~ BitVec.ofInt 64 a).toInt

def wideDivide (a b : ℤ) : ℤ :=
  if wideXor a b < 0 ∧ a.tdiv b * b ≠ a then a.tdiv b - 1 else a.tdiv b

def wideModulus (a b : ℤ) : ℤ :=
  if a = int64Min ∧ b = -1 then 0
  else if a.tmod b ≠ 0 ∧ wideXor (a.tmod b) b < 0 then a.tmod b + b
  else a.tmod b

/-- `result *= base`, or `none` where `overflow` is set instead. -/
def stepMul (check : Bool) (result base : ℤ) : Option ℤ :=
  if check ∧ mulOverflows result base then none else some (wrap 64 (result * base))

/-- `base *= base`. -/
def stepSquare (check : Bool) (base : ℤ) : Option ℤ :=
  if check ∧ squareOverflows base then none else some (wrap 64 (base * base))

/-- The loop of `**`. -/
def wideExponent (check : Bool) (base : ℤ) (exp : ℕ) : Option ℤ :=
  powLoop (stepMul check) (stepSquare check) base exp 1

def onOverflow (cfg : Config) (big : Except Failure Bytes) : Except Failure Bytes :=
  if cfg.bigintEnabled then big else .error (.static "integer overflow")

def shiftBits (iRight : ℤ) : ℕ := (iRight % 64).toNat

/-- The switch over the operators, with operands of 64 bits.  `big` is what the library
makes of the same operands. -/
def wideSwitch (cfg : Config) (big : Except Failure Bytes) (iLeft iRight : ℤ) :
    Op → Except Failure Bytes
  | .multiply =>
    if cfg.bOverflowCheck ∧ mulOverflows iLeft iRight then onOverflow cfg big
    else .ok (decimal (wrap 64 (iLeft * iRight)))
  | .divide =>
    if iRight = 0 then .error divideByZero
    else if cfg.bOverflowCheck ∧ iLeft = int64Min ∧ iRight = -1 then onOverflow cfg big
    else .ok (decimal (wrap 64 (wideDivide iLeft iRight)))
  | .modulus =>
    if iRight = 0 then .error divideByZero
    else .ok (decimal (wideModulus iLeft iRight))
  | .add =>
    if cfg.bOverflowCheck ∧ addOverflows iLeft iRight then onOverflow cfg big
    else .ok (decimal (wrap 64 (iLeft + iRight)))
  | .subtract =>
    if cfg.bOverflowCheck ∧ subOverflows iLeft iRight then onOverflow cfg big
    else .ok (decimal (wrap 64 (iLeft - iRight)))
  | .leftShift =>
    if cfg.bigintEnabled ∧ (63 < iRight ∨ iRight < 0) then big
    else .ok (decimal (wrap 64 (iLeft * 2 ^ shiftBits iRight)))
  | .rightShift => .ok (decimal (iLeft >>> shiftBits iRight))
  | .lt => .ok (truth (iLeft < iRight))
  | .gt => .ok (truth (iRight < iLeft))
  | .le => .ok (truth (iLeft ≤ iRight))
  | .ge => .ok (truth (iRight ≤ iLeft))
  | .eq => .ok (truth (iLeft = iRight))
  | .ne => .ok (truth (iLeft ≠ iRight))
  | .bitwiseAnd => .ok (decimal (wideAnd iLeft iRight))
  | .bitwiseXor => .ok (decimal (wideXor iLeft iRight))
  | .bitwiseOr => .ok (decimal (wideOr iLeft iRight))
  | .logicalAnd => .ok (truth (iLeft ≠ 0 ∧ iRight ≠ 0))
  | .logicalOr => .ok (truth (iLeft ≠ 0 ∨ iRight ≠ 0))
  | .unaryMinus =>
    if cfg.bOverflowCheck ∧ iLeft = int64Min then onOverflow cfg big
    else .ok (decimal (wrap 64 (-iLeft)))
  | .unaryPlus => .ok (decimal iLeft)
  | .bitwiseNot => .ok (decimal (wideNot iLeft))
  | .logicalNot => .ok (truth (iLeft = 0))
  | .exponent =>
    if iRight < 0 then .ok (decimal 0)
    else
      match wideExponent cfg.bOverflowCheck iLeft iRight.toNat with
      | none => onOverflow cfg big
      | some iRes => .ok (decimal iRes)
  | _ => .error .silent

def bigOperator (mp : MpLib) (op : Op) (zLeft : Bytes) (zRight : Option Bytes) :
    Except Failure Bytes :=
  match op with
  | .unaryMinus | .unaryPlus | .bitwiseNot | .logicalNot => bigintUnary mp zLeft op
  | _ => bigintArith mp zLeft (zRight.getD []) op

def convertLeft (toBoolean : Bytes → Option Bool) (op : Op) (zLeft : Bytes) : Except Failure ℤ :=
  match parseWideInt zLeft with
  | .ok v => .ok v
  | .error e =>
    if op = .logicalNot then
      match toBoolean zLeft with
      | none => .error e
      | some b => .ok (if b then 1 else 0)
    else .error e

def convertRight : Option Bytes → Except Failure ℤ
  | none => .ok 0
  | some zRight => parseWideInt zRight

def integerOperator (cfg : Config) (mp : MpLib) (toBoolean : Bytes → Option Bool) (op : Op)
    (zLeft : Bytes) (zRight : Option Bytes) : Except Failure Bytes :=
  let big := bigOperator mp op zLeft zRight
  if cfg.bigintEnabled && (isBigint mp zLeft || zRight.any (isBigint mp)) then big
  else do
    let iLeft ← convertLeft toBoolean op zLeft
    let iRight ← convertRight zRight
    wideSwitch cfg big iLeft iRight op

def isInteger (cfg : Config) (mp : MpLib) (z : Bytes) : Bool :=
  cfg.bigintEnabled && isBigint mp z || (parseWideInt z).toOption.isSome

/-- `th8ExprEval` once the operands have their values.  What it does with operands that
are not integers, and with those of the operators on strings, is `other`. -/
def evalOperator (cfg : Config) (mp : MpLib) (toBoolean : Bytes → Option Bool)
    (other : Op → Bytes → Option Bytes → Except Failure Bytes) (op : Op) (zLeft : Bytes)
    (zRight : Option Bytes) : Except Failure Bytes :=
  match eArgType op with
  | .number =>
    if isInteger cfg mp zLeft && zRight.all (isInteger cfg mp) then
      integerOperator cfg mp toBoolean op zLeft zRight
    else other op zLeft zRight
  | .integer => integerOperator cfg mp toBoolean op zLeft zRight
  | _ => other op zLeft zRight

section Tests

variable {a b : ℤ}

theorem twosRange_wide {v : ℤ} : TwosRange 64 v ↔ -2 ^ 63 ≤ v ∧ v < 2 ^ 63 :=
  twosRange_succ

theorem int64Max_eq : (int64Max : ℤ) = 2 ^ 63 - 1 := by norm_num [int64Max]

theorem addOverflows_iff (ha : TwosRange 64 a) (hb : TwosRange 64 b) :
    addOverflows a b ↔ ¬ TwosRange 64 (a + b) := by
  simp only [twosRange_wide, addOverflows, int64Max_eq, int64Min] at *
  omega

theorem subOverflows_iff (ha : TwosRange 64 a) (hb : TwosRange 64 b) :
    subOverflows a b ↔ ¬ TwosRange 64 (a - b) := by
  simp only [twosRange_wide, subOverflows, int64Max_eq, int64Min] at *
  omega

theorem mulOverflows_iff : mulOverflows a b ↔ ¬ TwosRange 64 (a * b) := by
  have hmax : (0 : ℤ) ≤ 2 ^ 63 - 1 := by norm_num
  have hmin : (0 : ℤ) ≤ 2 ^ 63 := by norm_num
  rw [twosRange_wide, mulOverflows, int64Max_eq, int64Min]
  rcases lt_trichotomy a 0 with ha | rfl | ha
  · rcases lt_trichotomy b 0 with hb | rfl | hb
    · have hprod : 0 < a * b := mul_pos_of_neg_of_neg ha hb
      simp only [ha, hb, hb.ne, not_lt.mpr ha.le, not_lt.mpr hb.le, ne_eq, not_false_eq_true,
        true_and, false_and, or_false, false_or, lt_tdiv_iff_lt_mul_of_neg hmax hb]
      omega
    · simp
    · have hprod : a * b < 0 := mul_neg_of_neg_of_pos ha hb
      simp only [ha, hb, hb.ne', not_lt.mpr ha.le, not_lt.mpr hb.le, ne_eq,
        not_false_eq_true, true_and, false_and, false_or, lt_tdiv_neg_iff_mul_lt hmin hb]
      omega
  · simp
  · rcases lt_trichotomy b 0 with hb | rfl | hb
    · have hprod : a * b < 0 := mul_neg_of_pos_of_neg ha hb
      simp only [ha, hb, hb.ne, not_lt.mpr ha.le, not_lt.mpr hb.le, ne_eq, not_false_eq_true,
        true_and, false_and, or_false, false_or, lt_tdiv_neg_iff_mul_lt hmin ha, mul_comm b a]
      omega
    · simp
    · have hprod : 0 < a * b := mul_pos ha hb
      simp only [ha, hb, hb.ne', not_lt.mpr ha.le, not_lt.mpr hb.le, ne_eq,
        not_false_eq_true, true_and, false_and, or_false, tdiv_lt_iff_lt_mul hmax hb]
      omega

theorem squareOverflows_iff : squareOverflows a ↔ ¬ TwosRange 64 (a * a) := by
  rw [← mulOverflows_iff, squareOverflows, mulOverflows]
  by_cases h1 : a = 1
  · subst h1
    decide
  by_cases h2 : a = -1
  · subst h2
    decide
  constructor
  · rintro ⟨h0, -, -, ⟨hpos, hlt⟩ | ⟨hneg, hlt⟩⟩
    · exact ⟨h0, .inl ⟨hpos, hpos, hlt⟩⟩
    · exact ⟨h0, .inr (.inl ⟨hneg, hneg, hlt⟩)⟩
  · rintro ⟨h0, ⟨hpos, -, hlt⟩ | ⟨hneg, -, hlt⟩ | ⟨hpos, hneg, -⟩ | ⟨hneg, hpos, -⟩⟩
    · exact ⟨h0, h1, h2, .inl ⟨hpos, hlt⟩⟩
    · exact ⟨h0, h1, h2, .inr ⟨hneg, hlt⟩⟩
    · exact absurd hpos (not_lt.mpr hneg.le)
    · exact absurd hpos (not_lt.mpr hneg.le)

/-! ## The operators on 64 bits -/

section

variable (ha : TwosRange 64 a)

include ha

theorem wideAnd_eq (hb : TwosRange 64 b) : wideAnd a b = Int.land a b := by
  rw [← bitwise_and]
  exact toInt_bitwise (g := (· &&& ·)) (fun x y i _ => BitVec.getLsbD_and) ha hb

theorem wideOr_eq (hb : TwosRange 64 b) : wideOr a b = Int.lor a b := by
  rw [← bitwise_or]
  exact toInt_bitwise (g := (· ||| ·)) (fun x y i _ => BitVec.getLsbD_or) ha hb

theorem wideXor_eq (hb : TwosRange 64 b) : wideXor a b = Int.xor a b := by
  rw [← bitwise_xor]
  exact toInt_bitwise (g := (· ^^^ ·)) (fun x y i _ => BitVec.getLsbD_xor) ha hb

theorem wideNot_eq : wideNot a = Int.lnot a := by
  rw [← bitwise_not]
  refine toInt_bitwise (g := fun x _ => ~~~ x) (b := 0) (fun x y i hi => ?_) ha (by decide)
  rw [BitVec.getLsbD_not, decide_eq_true hi, Bool.true_and]

theorem wideDivide_eq (hb : TwosRange 64 b) (h0 : b ≠ 0) : wideDivide a b = a.fdiv b := by
  have hexact : a.tdiv b * b ≠ a ↔ ¬ b ∣ a :=
    not_congr ⟨fun h => ⟨_, by rw [mul_comm]; exact h.symm⟩, Int.tdiv_mul_cancel⟩
  have hsign : ¬ b ∣ a → (Int.xor a b < 0 ↔ a * b < 0) := by
    intro hdvd
    have ha0 : a ≠ 0 := fun h => hdvd (h ▸ dvd_zero b)
    rw [xor_neg_iff, mul_neg_iff]
    omega
  rw [wideDivide, wideXor_eq ha hb, fdiv_eq h0]
  refine if_congr ?_ rfl rfl
  rw [hexact, and_comm]
  exact and_congr_right hsign

end

theorem wideModulus_eq (hb : TwosRange 64 b) (h0 : b ≠ 0) : wideModulus a b = a.fmod b := by
  have hdvd : a.tmod b ≠ 0 ↔ ¬ b ∣ a := not_congr dvd_iff_tmod_eq_zero.symm
  have hlt : (a.tmod b).natAbs < b.natAbs := by
    rw [natAbs_tmod]
    exact Nat.mod_lt _ (natAbs_pos.mpr h0)
  have hrange : TwosRange 64 (a.tmod b) := by
    rw [twosRange_wide] at hb ⊢
    omega
  have hsign : ¬ b ∣ a → (Int.xor (a.tmod b) b < 0 ↔ a * b < 0) := by
    intro hndvd
    rw [xor_neg_iff, mul_neg_iff]
    rcases le_total 0 a with ha | ha
    · have := tmod_nonneg b ha
      have ha0 : a ≠ 0 := fun h => hndvd (h ▸ dvd_zero b)
      omega
    · have := tmod_nonneg b (neg_nonneg.mpr ha)
      rw [neg_tmod] at this
      have ha0 : a ≠ 0 := fun h => hndvd (h ▸ dvd_zero b)
      omega
  rw [wideModulus, wideXor_eq hrange hb]
  split_ifs with hmin hcorrect
  · rw [hmin.1, hmin.2]
    decide
  · rw [fmod_eq h0, if_pos ⟨hdvd.mp hcorrect.1, (hsign (hdvd.mp hcorrect.1)).mp hcorrect.2⟩]
  · rw [fmod_eq h0, if_neg]
    rintro ⟨hndvd, hneg⟩
    exact hcorrect ⟨hdvd.mpr hndvd, (hsign hndvd).mpr hneg⟩

theorem cast_wrap (v : ℤ) : ((wrap 64 v : ℤ) : ZMod (2 ^ 64)) = v := by
  rw [ZMod.intCast_eq_intCast_iff, wrap]
  exact bmod_emod

theorem stepMul_unchecked (a b : ℤ) : stepMul false a b = some (wrap 64 (a * b)) := by
  simp [stepMul]

theorem stepSquare_unchecked (a : ℤ) : stepSquare false a = some (wrap 64 (a * a)) := by
  simp [stepSquare]

theorem stepMul_checked {c : ℤ} : stepMul true a b = some c ↔ TwosRange 64 (a * b) ∧ a * b = c := by
  by_cases hrange : TwosRange 64 (a * b)
  · simp [stepMul, mulOverflows_iff, hrange, wrap_eq_self hrange]
  · simp [stepMul, mulOverflows_iff, hrange]

theorem stepSquare_checked {c : ℤ} :
    stepSquare true a = some c ↔ TwosRange 64 (a * a) ∧ a * a = c := by
  by_cases hrange : TwosRange 64 (a * a)
  · simp [stepSquare, squareOverflows_iff, hrange, wrap_eq_self hrange]
  · simp [stepSquare, squareOverflows_iff, hrange]

theorem wideExponent_unchecked (exp : ℕ) (ha : TwosRange 64 a) :
    wideExponent false a exp = some (wrap 64 (a ^ exp)) := by
  have hmul (x y z : ℤ) (h : stepMul false x y = some z) : z = wrap 64 (x * y) := by
    rw [stepMul_unchecked] at h
    exact (Option.some.inj h).symm
  have hsquare (x z : ℤ) (h : stepSquare false x = some z) : z = wrap 64 (x * x) := by
    rw [stepSquare_unchecked] at h
    exact (Option.some.inj h).symm
  obtain ⟨r, hr⟩ : ∃ r, wideExponent false a exp = some r :=
    powLoop_isSome (P := fun _ => True) (fun x y _ _ => ⟨_, stepMul_unchecked x y, trivial⟩)
      (fun x _ => ⟨_, stepSquare_unchecked x, trivial⟩) trivial trivial
  have hrange : TwosRange 64 r :=
    powLoop_keeps (P := TwosRange 64) (fun x y z _ _ h => hmul x y z h ▸ twosRange_wrap 63 _)
      (fun x z _ h => hsquare x z h ▸ twosRange_wrap 63 _) ha (by decide) hr
  have hcast : (r : ZMod (2 ^ 64)) = ((1 : ℤ) : ZMod (2 ^ 64)) * (a : ZMod (2 ^ 64)) ^ exp :=
    powLoop_eq_some (f := fun v : ℤ => (v : ZMod (2 ^ 64)))
      (fun x y z h => by rw [hmul x y z h, cast_wrap, cast_mul])
      (fun x z h => by rw [hsquare x z h, cast_wrap, cast_mul]) hr
  rw [cast_one, one_mul, ← cast_pow, ZMod.intCast_eq_intCast_iff] at hcast
  rw [hr, ← wrap_eq_self hrange, wrap, wrap, ← emod_bmod, ← emod_bmod (x := a ^ exp)]
  exact congrArg (fun v => some (Int.bmod v (2 ^ 64))) hcast

theorem wideExponent_checked {exp : ℕ} {r : ℤ} (ha : TwosRange 64 a)
    (h : wideExponent true a exp = some r) : r = a ^ exp ∧ TwosRange 64 r := by
  constructor
  · have hpow : r = 1 * a ^ exp :=
      powLoop_eq_some (f := fun v : ℤ => v) (fun x y z h => (stepMul_checked.mp h).2.symm)
        (fun x z h => (stepSquare_checked.mp h).2.symm) h
    rw [hpow, one_mul]
  · refine powLoop_keeps (P := TwosRange 64) (fun x y z _ _ h => ?_) (fun x z _ h => ?_) ha
      (by decide) h
    · exact (stepMul_checked.mp h).2 ▸ (stepMul_checked.mp h).1
    · exact (stepSquare_checked.mp h).2 ▸ (stepSquare_checked.mp h).1

theorem wideExponent_unit (exp : ℕ) (ha : a.natAbs ≤ 1) :
    ∃ r, wideExponent true a exp = some r := by
  have hprod {x y : ℤ} (hx : x.natAbs ≤ 1) (hy : y.natAbs ≤ 1) :
      TwosRange 64 (x * y) ∧ (x * y).natAbs ≤ 1 := by
    have hle : (x * y).natAbs ≤ 1 := by
      rw [natAbs_mul]
      exact Nat.mul_le_mul hx hy
    rw [twosRange_wide]
    omega
  refine powLoop_isSome (P := fun v : ℤ => v.natAbs ≤ 1) (fun x y hx hy => ?_)
    (fun x hx => ?_) ha le_rfl
  · exact ⟨x * y, stepMul_checked.mpr ⟨(hprod hx hy).1, rfl⟩, (hprod hx hy).2⟩
  · exact ⟨x * x, stepSquare_checked.mpr ⟨(hprod hx hx).1, rfl⟩, (hprod hx hx).2⟩

end Tests

end Th8.Expr
