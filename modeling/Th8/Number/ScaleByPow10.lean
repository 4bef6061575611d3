import Mathlib.Algebra.Order.Field.Power
import Mathlib.Data.Nat.Bitwise
import Mathlib.Data.Rat.Cast.Order
import Mathlib.Tactic.FieldSimp
import Mathlib.Tactic.NormNum
import Mathlib.Tactic.Positivity
import Th8.Number.Pow10Table
import Th8.Support.Rounding

/-!
# Powers of ten
-/

namespace Th8

open Nat

/-!
## Scaling by a power of ten

`th8ScaleByPow10`: one multiplication with a cached power of ten, and an exact comparison
where the product falls on a midpoint.  Words are natural numbers below `2 ^ 64`; results
are bit patterns.  The second half of the module says in terms of the whole 192-bit
product what the words hold.
-/

namespace Number

/-- `th8Mul64x64`: both halves of a product of two words. -/
def mul64x64 (x y : ℕ) : ℕ × ℕ :=
  let xl := x &&& 0xFFFFFFFF
  let xh := x >>> 32
  let yl := y &&& 0xFFFFFFFF
  let yh := y >>> 32
  let ll := xl * yl
  let hl := xh * yl
  let lh := xl * yh
  let hh := xh * yh
  let mid := (ll >>> 32) + (hl &&& 0xFFFFFFFF) + (lh &&& 0xFFFFFFFF)
  ((hh + (hl >>> 32) + (lh >>> 32) + (mid >>> 32)) % 2 ^ 64,
    (ll &&& 0xFFFFFFFF) ||| ((mid <<< 32) % 2 ^ 64))

/-- The two integers that `th8BignumDecideRound` compares: `M * 10^q` and
`midM * 2^midE`, both multiplied by the same power. -/
def bignumSides (M : ℕ) (q : ℤ) (midM : ℕ) (midE : ℤ) : ℕ × ℕ :=
  if 0 ≤ q then
    if 0 ≤ midE then (M * 10 ^ q.toNat, midM * 2 ^ midE.toNat)
    else (M * 10 ^ q.toNat * 2 ^ (-midE).toNat, midM)
  else
    let absq := -q
    let extraE := midE + absq
    if 0 ≤ extraE then (M, midM * 5 ^ absq.toNat * 2 ^ extraE.toNat)
    else (M * 2 ^ (-extraE).toNat, midM * 5 ^ absq.toNat)

def binaryExponent (biasedExp : ℤ) : ℤ := if 0 < biasedExp then biasedExp - 1075 else -1074

/-- `th8BignumDecideRound`: whether `M * 10^q` rounds away from the candidate, decided
on integers. -/
def bignumDecideRound (M : ℕ) (q : ℤ) (mantissa : ℕ) (biasedExp : ℤ) : Bool :=
  let (A, B) := bignumSides M q (2 * mantissa + 1) (binaryExponent biasedExp - 1)
  if B < A then true
  else if A < B then false
  else mantissa &&& 1 == 1

def normalize : ℕ → ℕ → ℕ → ℕ × ℕ
  | 0, w, lz => (w, lz)
  | fuel + 1, w, lz =>
    if w &&& (1 <<< 63) = 0 then normalize fuel ((w <<< 1) % 2 ^ 64) (lz + 1) else (w, lz)

def fullProduct (w cHi cLo : ℕ) : ℕ × ℕ × ℕ :=
  let (aHi, aLo) := mul64x64 w cHi
  let (bHi, bLo) := mul64x64 w cLo
  let mid := (aLo + bHi) % 2 ^ 64
  ((aHi + if mid < aLo then 1 else 0) % 2 ^ 64, mid, bLo)

def shiftProduct (top mid low : ℕ) : ℕ × ℕ × ℕ :=
  (((top <<< 1) % 2 ^ 64) ||| (mid >>> 63), ((mid <<< 1) % 2 ^ 64) ||| (low >>> 63),
    (low <<< 1) % 2 ^ 64)

def pack (biasedExp : ℤ) (M : ℕ) : ℕ :=
  if 0 < biasedExp then (biasedExp.toNat <<< 52) ||| (M &&& 0xFFFFFFFFFFFFF)
  else M &&& 0xFFFFFFFFFFFFF

/-- Whether the candidate mantissa `M` is rounded up. -/
def roundUp (bigint : Bool) (mOrig : ℕ) (qOrig : ℤ) (M roundBit sticky : ℕ)
    (biasedExp : ℤ) : Bool :=
  if roundBit ≠ 0 ∧ sticky = 0 then
    if bigint then bignumDecideRound mOrig qOrig M biasedExp else M &&& 1 == 1
  else
    decide (roundBit ≠ 0 ∧ (sticky ≠ 0 ∨ M &&& 1 = 1))

def roundAndPack (bigint : Bool) (mOrig : ℕ) (qOrig : ℤ) (M roundBit sticky : ℕ)
    (biasedExp : ℤ) : ℕ :=
  if roundUp bigint mOrig qOrig M roundBit sticky biasedExp then
    let M := M + 1
    if 0 < biasedExp ∧ M = 1 <<< 53 then
      if 0x7FF ≤ biasedExp + 1 then 0x7FF0000000000000 else pack (biasedExp + 1) (1 <<< 52)
    else if biasedExp = 0 ∧ M = 1 <<< 52 then pack 1 0
    else pack biasedExp M
  else pack biasedExp M

/-- The part of `th8ScaleByPow10` after the multiplication: overflow, the extraction of the
mantissa with its round and sticky bits, gradual underflow. -/
def roundWords (bigint : Bool) (mOrig : ℕ) (qOrig : ℤ) (top mid low : ℕ) (biasedExp : ℤ) : ℕ :=
  if 0x7FF ≤ biasedExp then 0x7FF0000000000000
  else if 0 < biasedExp then
    roundAndPack bigint mOrig qOrig (top >>> 11) ((top >>> 10) &&& 1)
      ((top &&& 0x3FF) ||| mid ||| low) biasedExp
  else
    let shift := (1 - biasedExp).toNat
    let totalShift := 11 + shift
    if 52 < shift then 0
    else if 64 ≤ totalShift then 0
    else
      roundAndPack bigint mOrig qOrig (top >>> totalShift) ((top >>> (totalShift - 1)) &&& 1)
        ((top &&& ((1 <<< (totalShift - 1)) - 1)) ||| mid ||| low) 0

/-- `th8ScaleByPow10`: the bit pattern for `mantissa * 10^decExp`.  `bigint` says whether
the exact comparison is available to the interpreter. -/
def scaleByPow10 (bigint : Bool) (mantissa : ℕ) (decExp : ℤ) : ℕ :=
  if mantissa = 0 then 0
  else if decExp < pow10QMin then 0
  else if pow10QMax < decExp then 0x7FF0000000000000
  else
    let (W, lz) := normalize 64 mantissa 0
    let c := pow10Row decExp
    let (top, mid, low) := fullProduct W c.hi c.lo
    let upperbit := (top >>> 63) &&& 1
    let (top, mid, low) :=
      if upperbit = 0 then shiftProduct top mid low else (top, mid, low)
    roundWords bigint mantissa decExp top mid low (1213 + upperbit + c.e - lz)

/-! ### Words -/

theorem lor_shiftLeft_eq_add {x y k : ℕ} (hx : x < 2 ^ k) : x ||| (y <<< k) = x + y * 2 ^ k := by
  rw [lor_comm, ← shiftLeft_add_eq_or_of_lt hx, shiftLeft_eq, add_comm]

theorem mul64x64_spec {x y : ℕ} (hx : x < 2 ^ 64) (hy : y < 2 ^ 64) :
    (mul64x64 x y).1 * 2 ^ 64 + (mul64x64 x y).2 = x * y ∧
      (mul64x64 x y).1 < 2 ^ 64 ∧ (mul64x64 x y).2 < 2 ^ 64 := by
  have hmask : ∀ z, z &&& 0xFFFFFFFF = z % 2 ^ 32 := fun z => and_two_pow_sub_one_eq_mod z 32
  have hprod : x * y = x / 2 ^ 32 * (y / 2 ^ 32) * 2 ^ 64 +
      (x / 2 ^ 32 * (y % 2 ^ 32) + x % 2 ^ 32 * (y / 2 ^ 32)) * 2 ^ 32 +
      x % 2 ^ 32 * (y % 2 ^ 32) := by
    conv_lhs => rw [← div_add_mod x (2 ^ 32), ← div_add_mod y (2 ^ 32)]
    ring
  have hlt : x * y < 2 ^ 128 := by
    calc x * y < 2 ^ 64 * 2 ^ 64 := mul_lt_mul'' hx hy
      _ = 2 ^ 128 := by norm_num
  simp only [mul64x64, hmask, Nat.shiftRight_eq_div_pow]
  generalize x / 2 ^ 32 * (y / 2 ^ 32) = hh at *
  generalize x / 2 ^ 32 * (y % 2 ^ 32) = hl at *
  generalize x % 2 ^ 32 * (y / 2 ^ 32) = lh at *
  generalize x % 2 ^ 32 * (y % 2 ^ 32) = ll at *
  have hlow : ∀ mid, ll % 2 ^ 32 ||| ((mid <<< 32) % 2 ^ 64) =
      ll % 2 ^ 32 + mid % 2 ^ 32 * 2 ^ 32 := by
    intro mid
    rw [← lor_shiftLeft_eq_add (mod_lt _ (by norm_num)), shiftLeft_eq, shiftLeft_eq]
    congr 1
    omega
  rw [hlow]
  omega

theorem and_top_bit_eq_zero_iff {w : ℕ} (hw : w < 2 ^ 64) : w &&& (1 <<< 63) = 0 ↔ w < 2 ^ 63 := by
  rw [one_shiftLeft, and_two_pow, testBit_eq_decide_div_mod_eq]
  by_cases h : w / 2 ^ 63 % 2 = 1
  · simp only [h, decide_true, Bool.toNat_true]
    omega
  · simp only [h, decide_false, Bool.toNat_false]
    omega

theorem normalize_spec {fuel w : ℕ} (lz : ℕ) (hpos : 0 < w) (hw : w < 2 ^ 64)
    (hfuel : 2 ^ 63 ≤ w * 2 ^ fuel) :
    ∃ k, normalize fuel w lz = (w * 2 ^ k, lz + k) ∧ 2 ^ 63 ≤ w * 2 ^ k ∧ w * 2 ^ k < 2 ^ 64 := by
  induction fuel generalizing w lz with
  | zero => exact ⟨0, by simp [normalize], by simpa using hfuel, by simpa using hw⟩
  | succ fuel ih =>
    by_cases htop : w &&& (1 <<< 63) = 0
    · have hlt := (and_top_bit_eq_zero_iff hw).mp htop
      have hdouble : (w <<< 1) % 2 ^ 64 = w * 2 := by
        rw [shiftLeft_eq]
        omega
      obtain ⟨k, hk, hlow, hhigh⟩ := ih (w := w * 2) (lz + 1) (by omega) (by omega)
        (by rwa [mul_assoc, ← pow_succ'])
      have hpow : w * 2 * 2 ^ k = w * 2 ^ (k + 1) := by
        rw [mul_assoc, ← pow_succ']
      rw [hpow] at hk hlow hhigh
      refine ⟨k + 1, ?_, hlow, hhigh⟩
      rw [normalize, if_pos htop, hdouble, hk, add_assoc, add_comm 1 k]
    · refine ⟨0, ?_, ?_, by simpa using hw⟩
      · rw [normalize, if_neg htop]
        simp
      · have := mt (and_top_bit_eq_zero_iff hw).mpr htop
        omega

def threeWords (p : ℕ × ℕ × ℕ) : ℕ := p.1 * 2 ^ 128 + p.2.1 * 2 ^ 64 + p.2.2

theorem fullProduct_spec {w cHi cLo : ℕ} (hw : w < 2 ^ 64) (hhi : cHi < 2 ^ 64)
    (hlo : cLo < 2 ^ 64) :
    threeWords (fullProduct w cHi cLo) = w * (cHi * 2 ^ 64 + cLo) ∧
      (fullProduct w cHi cLo).1 < 2 ^ 64 ∧ (fullProduct w cHi cLo).2.1 < 2 ^ 64 ∧
      (fullProduct w cHi cLo).2.2 < 2 ^ 64 := by
  obtain ⟨ha, ha₁, ha₂⟩ := mul64x64_spec hw hhi
  obtain ⟨hb, hb₁, hb₂⟩ := mul64x64_spec hw hlo
  have hprod : w * (cHi * 2 ^ 64 + cLo) = w * cHi * 2 ^ 64 + w * cLo := by ring
  have hlt : w * (cHi * 2 ^ 64 + cLo) < 2 ^ 64 * 2 ^ 128 := mul_lt_mul'' hw (by omega)
  simp only [fullProduct, threeWords]
  rw [hprod] at hlt ⊢
  rw [← ha, ← hb] at hlt ⊢
  split_ifs <;> omega

theorem shiftProduct_spec {top mid low : ℕ} (htop : top < 2 ^ 63) (hmid : mid < 2 ^ 64)
    (hlow : low < 2 ^ 64) :
    threeWords (shiftProduct top mid low) = 2 * threeWords (top, mid, low) ∧
      (shiftProduct top mid low).1 < 2 ^ 64 ∧ (shiftProduct top mid low).2.1 < 2 ^ 64 ∧
      (shiftProduct top mid low).2.2 < 2 ^ 64 := by
  have hor : ∀ x y : ℕ, y < 2 ^ 64 →
      ((x <<< 1) % 2 ^ 64) ||| (y >>> 63) = x * 2 % 2 ^ 64 + y / 2 ^ 63 := by
    intro x y hy
    have hbit : y / 2 ^ 63 < 2 ^ 1 := by omega
    rw [lor_comm, Nat.shiftRight_eq_div_pow, shiftLeft_eq,
      show x * 2 ^ 1 % 2 ^ 64 = (x % 2 ^ 63) <<< 1 by rw [shiftLeft_eq]; omega,
      lor_shiftLeft_eq_add hbit]
    omega
  simp only [shiftProduct, threeWords, hor top mid hmid, hor mid low hlow]
  rw [shiftLeft_eq]
  omega

theorem pack_normal {e m : ℕ} (he : 0 < e) (hlow : 2 ^ 52 ≤ m) (hhigh : m < 2 ^ 53) :
    pack e m = e * 2 ^ 52 + (m - 2 ^ 52) := by
  have hmask : m &&& 0xFFFFFFFFFFFFF = m - 2 ^ 52 := by
    rw [show 0xFFFFFFFFFFFFF = 2 ^ 52 - 1 from rfl, and_two_pow_sub_one_eq_mod]
    omega
  rw [pack, if_pos (by omega), hmask, Int.toNat_natCast, lor_comm,
    lor_shiftLeft_eq_add (by omega), add_comm]

theorem pack_subnormal {m : ℕ} (h : m < 2 ^ 52) : pack 0 m = m := by
  rw [pack, if_neg (by omega), show 0xFFFFFFFFFFFFF = 2 ^ 52 - 1 from rfl,
    and_two_pow_sub_one_eq_mod]
  omega

def WellFormed (e m : ℕ) : Prop :=
  (0 < e ∧ e < 0x7FF ∧ 2 ^ 52 ≤ m ∧ m < 2 ^ 53) ∨ (e = 0 ∧ m < 2 ^ 52)

theorem roundAndPack_eq {bigint : Bool} {mOrig m roundBit sticky e : ℕ} {qOrig : ℤ}
    (hwf : WellFormed e m) :
    roundAndPack bigint mOrig qOrig m roundBit sticky e =
      if roundUp bigint mOrig qOrig m roundBit sticky e then pack e m + 1 else pack e m := by
  unfold roundAndPack
  split
  · simp only [one_shiftLeft]
    rcases hwf with ⟨hpos, hfin, hlow, hhigh⟩ | ⟨rfl, hm⟩
    · rw [pack_normal hpos hlow hhigh]
      by_cases hcarry : m + 1 = 2 ^ 53
      · rw [if_pos ⟨by omega, hcarry⟩]
        split
        · obtain rfl : e = 0x7FE := by omega
          omega
        · rw [show (e : ℤ) + 1 = (e + 1 : ℕ) from rfl, pack_normal (by omega) le_rfl (by norm_num)]
          omega
      · rw [if_neg (by omega), if_neg (by omega), pack_normal hpos (by omega) (by omega)]
        omega
    · rw [if_neg (by simp), cast_zero, pack_subnormal hm]
      by_cases hcarry : m + 1 = 2 ^ 52
      · rw [if_pos ⟨rfl, hcarry⟩, hcarry]
        rfl
      · rw [if_neg (by omega), pack_subnormal (by omega)]
  · rfl

theorem roundAndPack_congr {bigint : Bool} {mOrig m roundBit sticky sticky' : ℕ}
    {qOrig biasedExp : ℤ} (h : sticky = 0 ↔ sticky' = 0) :
    roundAndPack bigint mOrig qOrig m roundBit sticky biasedExp =
      roundAndPack bigint mOrig qOrig m roundBit sticky' biasedExp := by
  have hup : roundUp bigint mOrig qOrig m roundBit sticky biasedExp =
      roundUp bigint mOrig qOrig m roundBit sticky' biasedExp := by
    simp only [roundUp, ne_eq, h]
  rw [roundAndPack, roundAndPack, hup]

/-! ### The function on the whole product -/

def droppedBits (biasedExp : ℤ) : ℕ :=
  if 0 < biasedExp then 139 else (140 - biasedExp).toNat

/-- What follows the multiplication, on a product `N` of 192 bits. -/
def roundProduct (bigint : Bool) (mOrig : ℕ) (qOrig : ℤ) (N : ℕ) (biasedExp : ℤ) : ℕ :=
  if 0x7FF ≤ biasedExp then 0x7FF0000000000000
  else if biasedExp < -51 then 0
  else
    let k := droppedBits biasedExp
    roundAndPack bigint mOrig qOrig (N / 2 ^ k) (N / 2 ^ (k - 1) % 2) (N % 2 ^ (k - 1))
      (max biasedExp 0)

theorem extract_spec (top : ℕ) {mid low s : ℕ} (hmid : mid < 2 ^ 64) (hlow : low < 2 ^ 64)
    (hs : 0 < s) :
    top >>> s = threeWords (top, mid, low) / 2 ^ (128 + s) ∧
      (top >>> (s - 1)) &&& 1 = threeWords (top, mid, low) / 2 ^ (128 + s - 1) % 2 ∧
      ((top &&& ((1 <<< (s - 1)) - 1)) ||| mid ||| low = 0 ↔
        threeWords (top, mid, low) % 2 ^ (128 + s - 1) = 0) := by
  have hdiv : threeWords (top, mid, low) / 2 ^ 128 = top := by
    simp only [threeWords]
    omega
  have hmod : threeWords (top, mid, low) % 2 ^ 128 = mid * 2 ^ 64 + low := by
    simp only [threeWords]
    omega
  rw [Nat.add_sub_assoc hs]
  refine ⟨?_, ?_, ?_⟩
  · rw [Nat.pow_add, ← Nat.div_div_eq_div_mul, hdiv, Nat.shiftRight_eq_div_pow]
  · rw [Nat.pow_add, ← Nat.div_div_eq_div_mul, hdiv, Nat.shiftRight_eq_div_pow, Nat.and_one_is_mod]
  · rw [Nat.pow_add, mod_mul, hdiv, hmod, or_eq_zero_iff, or_eq_zero_iff,
      one_shiftLeft, and_two_pow_sub_one_eq_mod]
    generalize top % 2 ^ (s - 1) = rest
    omega

theorem roundWords_eq {bigint : Bool} {mOrig top mid low : ℕ} {qOrig biasedExp : ℤ}
    (hmid : mid < 2 ^ 64) (hlow : low < 2 ^ 64) :
    roundWords bigint mOrig qOrig top mid low biasedExp =
      roundProduct bigint mOrig qOrig (threeWords (top, mid, low)) biasedExp := by
  by_cases hinf : 0x7FF ≤ biasedExp
  · rw [roundWords, roundProduct, if_pos hinf, if_pos hinf]
  by_cases hnormal : 0 < biasedExp
  · obtain ⟨hm, hr, hst⟩ := extract_spec top hmid hlow (show 0 < 11 by norm_num)
    rw [roundWords, roundProduct, if_neg hinf, if_neg hinf, if_pos hnormal,
      if_neg (by omega), droppedBits, if_pos hnormal, max_eq_left hnormal.le]
    simp only [Nat.reduceAdd, Nat.add_one_sub_one] at hm hr hst ⊢
    rw [hm, hr]
    exact roundAndPack_congr hst
  by_cases hsmall : biasedExp < -51
  · rw [roundWords, roundProduct, if_neg hinf, if_neg hinf, if_neg hnormal, if_pos hsmall]
    simp only [if_pos (show 52 < (1 - biasedExp).toNat by omega)]
  · obtain ⟨hm, hr, hst⟩ := extract_spec top hmid hlow
      (show 0 < 11 + (1 - biasedExp).toNat by omega)
    rw [roundWords, roundProduct, if_neg hinf, if_neg hinf, if_neg hnormal, if_neg hsmall,
      droppedBits, if_neg hnormal, max_eq_right (not_lt.mp hnormal),
      show (140 - biasedExp).toNat = 128 + (11 + (1 - biasedExp).toNat) by omega]
    simp only [if_neg (show ¬ 52 < (1 - biasedExp).toNat by omega),
      if_neg (show ¬ 64 ≤ 11 + (1 - biasedExp).toNat by omega)]
    rw [hm, hr]
    exact roundAndPack_congr hst

theorem product_bounds {w c : ℕ} (hw : 2 ^ 63 ≤ w) (hw' : w < 2 ^ 64) (hc : 2 ^ 127 ≤ c)
    (hc' : c < 2 ^ 128) : 2 ^ 190 ≤ w * c ∧ w * c < 2 ^ 192 := by
  constructor
  · calc 2 ^ 190 = 2 ^ 63 * 2 ^ 127 := by norm_num
      _ ≤ w * c := Nat.mul_le_mul hw hc
  · calc w * c < 2 ^ 64 * 2 ^ 128 := mul_lt_mul'' hw' hc'
      _ = 2 ^ 192 := by norm_num

theorem aligned_spec {top mid low : ℕ} (htop : top < 2 ^ 64) (hmid : mid < 2 ^ 64)
    (hlow : low < 2 ^ 64) (hbound : 2 ^ 190 ≤ threeWords (top, mid, low)) :
    ∃ top' mid' low', ((top >>> 63) &&& 1) ≤ 1 ∧
      (if (top >>> 63) &&& 1 = 0 then shiftProduct top mid low else (top, mid, low)) =
        (top', mid', low') ∧
      threeWords (top', mid', low') * 2 ^ ((top >>> 63) &&& 1) = threeWords (top, mid, low) * 2 ∧
      2 ^ 191 ≤ threeWords (top', mid', low') ∧ threeWords (top', mid', low') < 2 ^ 192 ∧
      mid' < 2 ^ 64 ∧ low' < 2 ^ 64 := by
  have hbit : (top >>> 63) &&& 1 = top / 2 ^ 63 := by
    rw [Nat.and_one_is_mod, Nat.shiftRight_eq_div_pow]
    omega
  rw [hbit]
  by_cases hzero : top / 2 ^ 63 = 0
  · obtain ⟨hshift, -, hm, hl⟩ := shiftProduct_spec (show top < 2 ^ 63 by omega) hmid hlow
    refine ⟨_, _, _, by omega, by rw [if_pos hzero], ?_, ?_, ?_, hm, hl⟩
    · rw [hshift, hzero]
      omega
    · rw [hshift]
      omega
    · rw [hshift]
      simp only [threeWords]
      omega
  · have hone : top / 2 ^ 63 = 1 := by omega
    refine ⟨top, mid, low, by omega, by rw [if_neg hzero], by rw [hone, pow_one], ?_, ?_, hmid,
      hlow⟩
    · simp only [threeWords]
      omega
    · simp only [threeWords]
      omega

theorem scaleByPow10_eq_roundProduct (bigint : Bool) {M : ℕ} {q : ℤ}
    (hpos : 0 < M) (hM : M < 2 ^ 64) (hmin : pow10QMin ≤ q) (hmax : q ≤ pow10QMax)
    (hhi : (pow10Row q).hi < 2 ^ 64) (hlo : (pow10Row q).lo < 2 ^ 64)
    (hc : 2 ^ 127 ≤ (pow10Row q).significand) :
    ∃ lz ub N : ℕ, 2 ^ 63 ≤ M * 2 ^ lz ∧ M * 2 ^ lz < 2 ^ 64 ∧
      N * 2 ^ ub = M * 2 ^ lz * (pow10Row q).significand * 2 ∧ 2 ^ 191 ≤ N ∧ N < 2 ^ 192 ∧
      scaleByPow10 bigint M q = roundProduct bigint M q N (1213 + ub + (pow10Row q).e - lz) := by
  generalize hrow : pow10Row q = row at *
  obtain ⟨lz, hnorm, hw, hw'⟩ := normalize_spec 0 hpos hM (show 2 ^ 63 ≤ M * 2 ^ 64 by omega)
  obtain ⟨hprod, htop, hmid, hlow⟩ := fullProduct_spec hw' hhi hlo
  have hc' : row.significand < 2 ^ 128 := by
    unfold CachedPower.significand
    omega
  have hbound := (product_bounds hw hw' hc hc').1
  rw [show row.hi * 2 ^ 64 + row.lo = row.significand from rfl] at hprod
  rw [← hprod] at hbound
  obtain ⟨top, mid, low, -, halign, hvalue, hlower, hupper, hmid', hlow'⟩ :=
    aligned_spec htop hmid hlow hbound
  refine ⟨lz, _, threeWords (top, mid, low), hw, hw', by rw [hvalue, hprod], hlower, hupper, ?_⟩
  simp only [scaleByPow10, if_neg hpos.ne', if_neg (not_lt.mpr hmin), if_neg (not_lt.mpr hmax),
    hrow, hnorm, zero_add, halign]
  exact roundWords_eq hmid' hlow'

end Number

/-!
## What the cached powers are good for

Between `10^0` and `10^55` the table is exact.  Everywhere else an entry and the power it
stands for lie so close together, relative to the denominators below `2 ^ 64` around them,
that no product with a word falls on the other side of a number of 54 bits.  Each entry is
checked by walking to the neighbouring fractions around it.
-/

namespace Number

open Support

/-- The numerator of `10^q / 2^e`. -/
def ratioNum (q e : ℤ) : ℕ := 10 ^ q.toNat * 2 ^ (-e).toNat

/-- The denominator of `10^q / 2^e`. -/
def ratioDen (q e : ℤ) : ℕ := 10 ^ (-q).toNat * 2 ^ e.toNat

theorem ratioDen_pos (q e : ℤ) : 0 < ratioDen q e := by
  unfold ratioDen
  positivity

theorem zpow_toNat_div (a : ℚ) (k : ℤ) : a ^ k.toNat / a ^ (-k).toNat = a ^ k := by
  rcases le_total 0 k with hk | hk
  · rw [Int.toNat_of_nonpos (by omega : -k ≤ 0), pow_zero, div_one, ← zpow_natCast,
      Int.toNat_of_nonneg hk]
  · rw [Int.toNat_of_nonpos hk, pow_zero, one_div, ← zpow_natCast,
      Int.toNat_of_nonneg (by omega), zpow_neg, inv_inv]

theorem ten_zpow_eq (q e : ℤ) : (10 : ℚ) ^ q = ratioNum q e / ratioDen q e * 2 ^ e := by
  rw [← zpow_toNat_div 10 q,
    ← zpow_toNat_div 2 e]
  unfold ratioNum ratioDen
  push_cast
  have h₁ : (2 : ℚ) ^ (-e).toNat ≠ 0 := by positivity
  have h₂ : (2 : ℚ) ^ e.toNat ≠ 0 := by positivity
  field_simp

/-- Neighbours around `c / 2^137` and around `num / (den * 2^137)`. -/
structure Separates (p : Neighbours) (c num den : ℕ) : Prop where
  limit : 2 ^ 64 ≤ p.lowDen + p.highDen
  high_pos : 0 < p.highDen
  low_lt : p.lowNum * 2 ^ 137 < c * p.lowDen
  lt_high : c * p.highDen < p.highNum * 2 ^ 137
  low_le : p.lowNum * 2 ^ 137 * den ≤ num * p.lowDen
  le_high : num * p.highDen ≤ p.highNum * 2 ^ 137 * den

instance (p : Neighbours) (c num den : ℕ) : Decidable (Separates p c num den) :=
  decidable_of_iff
    (2 ^ 64 ≤ p.lowDen + p.highDen ∧ 0 < p.highDen ∧ p.lowNum * 2 ^ 137 < c * p.lowDen ∧
      c * p.highDen < p.highNum * 2 ^ 137 ∧ p.lowNum * 2 ^ 137 * den ≤ num * p.lowDen ∧
      num * p.highDen ≤ p.highNum * 2 ^ 137 * den)
    ⟨fun ⟨h₁, h₂, h₃, h₄, h₅, h₆⟩ => ⟨h₁, h₂, h₃, h₄, h₅, h₆⟩,
      fun ⟨h₁, h₂, h₃, h₄, h₅, h₆⟩ => ⟨h₁, h₂, h₃, h₄, h₅, h₆⟩⟩

theorem Separates.no_multiple {p : Neighbours} {c num den w n : ℕ}
    (h : Separates p c num den) (hden : 0 < den) (hw : 0 < w) (hw' : w < 2 ^ 64) :
    ¬ (w * num < n * 2 ^ 137 * den ∧ n * 2 ^ 137 ≤ w * c) ∧
      ¬ (w * c ≤ n * 2 ^ 137 ∧ n * 2 ^ 137 * den < w * num) := by
  have hscale : 0 < 2 ^ 137 * den := by positivity
  have hfar := fun hlow hhigh => (p.den_le_of_between (n := n) (d := w) hlow hhigh).trans_lt hw'
  constructor
  · rintro ⟨hlow, hhigh⟩
    refine absurd h.limit (not_le.mpr (hfar ?_ ?_))
    · refine lt_of_mul_lt_mul_right ?_ hscale.le
      calc p.lowNum * w * (2 ^ 137 * den) = w * (p.lowNum * 2 ^ 137 * den) := by ring
        _ ≤ w * (num * p.lowDen) := mul_le_mul_left _ h.low_le
        _ = w * num * p.lowDen := by ring
        _ < n * 2 ^ 137 * den * p.lowDen := by
          refine mul_lt_mul_of_pos_right hlow (pos_of_ne_zero fun hzero => ?_)
          have := h.low_lt
          rw [hzero] at this
          omega
        _ = n * p.lowDen * (2 ^ 137 * den) := by ring
    · refine lt_of_mul_lt_mul_right ?_ (show 0 ≤ 2 ^ 137 by positivity)
      calc n * p.highDen * 2 ^ 137 = n * 2 ^ 137 * p.highDen := by ring
        _ ≤ w * c * p.highDen := mul_le_mul_right _ hhigh
        _ = w * (c * p.highDen) := by ring
        _ < w * (p.highNum * 2 ^ 137) := mul_lt_mul_of_pos_left h.lt_high hw
        _ = p.highNum * w * 2 ^ 137 := by ring
  · rintro ⟨hlow, hhigh⟩
    refine absurd h.limit (not_le.mpr (hfar ?_ ?_))
    · refine lt_of_mul_lt_mul_right ?_ (show 0 ≤ 2 ^ 137 by positivity)
      calc p.lowNum * w * 2 ^ 137 = w * (p.lowNum * 2 ^ 137) := by ring
        _ < w * (c * p.lowDen) := mul_lt_mul_of_pos_left h.low_lt hw
        _ = w * c * p.lowDen := by ring
        _ ≤ n * 2 ^ 137 * p.lowDen := mul_le_mul_right _ hlow
        _ = n * p.lowDen * 2 ^ 137 := by ring
    · refine lt_of_mul_lt_mul_right ?_ hscale.le
      calc n * p.highDen * (2 ^ 137 * den) = n * 2 ^ 137 * den * p.highDen := by ring
        _ < w * num * p.highDen := by
          exact mul_lt_mul_of_pos_right hhigh h.high_pos
        _ = w * (num * p.highDen) := by ring
        _ ≤ w * (p.highNum * 2 ^ 137 * den) := mul_le_mul_left _ h.le_high
        _ = p.highNum * w * (2 ^ 137 * den) := by ring

/-- What an entry has to satisfy: it is normalized, and exact or separated from the
multiples of `2^137`. -/
structure RowSound (q : ℤ) (row : CachedPower) : Prop where
  hi_lt : row.hi < 2 ^ 64
  lo_lt : row.lo < 2 ^ 64
  le_significand : 2 ^ 127 ≤ row.significand
  le_ratio : 2 ^ 127 * ratioDen q row.e ≤ ratioNum q row.e
  exact : 0 ≤ q → q ≤ 55 → row.significand * ratioDen q row.e = ratioNum q row.e
  separated : q < 0 ∨ 55 < q →
    ∃ p : Neighbours, Separates p row.significand (ratioNum q row.e) (ratioDen q row.e)

/-- The check of one entry: from `0/1` and `1/1` down to the neighbours. -/
def checkRow (q : ℤ) (row : CachedPower) : Bool :=
  let c := row.significand
  let num := ratioNum q row.e
  let den := ratioDen q row.e
  decide (row.hi < 2 ^ 64) && decide (row.lo < 2 ^ 64) && decide (2 ^ 127 ≤ c) &&
    decide (2 ^ 127 * den ≤ num) &&
    if 0 ≤ q ∧ q ≤ 55 then decide (c * den = num)
    else decide (Separates (Neighbours.around (2 ^ 64) c (2 ^ 137) 40 Neighbours.unit) c num den)

def checkRows : ℤ → List CachedPower → Bool
  | _, [] => true
  | q, row :: rows => checkRow q row && checkRows (q + 1) rows

theorem rowSound_of_checkRow {q : ℤ} {row : CachedPower} (h : checkRow q row = true) :
    RowSound q row := by
  simp only [checkRow, Bool.and_eq_true, decide_eq_true_eq] at h
  obtain ⟨⟨⟨⟨hhi, hlo⟩, hsig⟩, hratio⟩, hrest⟩ := h
  refine ⟨hhi, hlo, hsig, hratio, fun hlow hhigh => ?_, fun hout => ?_⟩
  · rw [if_pos ⟨hlow, hhigh⟩] at hrest
    exact of_decide_eq_true hrest
  · rw [if_neg (by omega)] at hrest
    exact ⟨_, of_decide_eq_true hrest⟩

theorem rowSound_of_checkRows {q : ℤ} {rows : List CachedPower} (h : checkRows q rows = true)
    {i : ℕ} {row : CachedPower} (hrow : rows[i]? = some row) : RowSound (q + i) row := by
  induction rows generalizing q i with
  | nil => simp at hrow
  | cons first rows ih =>
    simp only [checkRows, Bool.and_eq_true] at h
    cases i with
    | zero =>
      obtain rfl : first = row := by simpa using hrow
      simpa using rowSound_of_checkRow h.1
    | succ i =>
      have := ih h.2 (by simpa using hrow)
      rwa [show q + 1 + (i : ℤ) = q + (i + 1 : ℕ) by push_cast; ring] at this

theorem checkRows_of_take_of_drop {q : ℤ} {rows : List CachedPower} (n : ℕ)
    (htake : checkRows q (rows.take n) = true)
    (hdrop : checkRows (q + n) (rows.drop n) = true) : checkRows q rows = true := by
  induction rows generalizing q n with
  | nil => rfl
  | cons row rows ih =>
    cases n with
    | zero => simpa using hdrop
    | succ n =>
      simp only [List.take_succ_cons, List.drop_succ_cons, checkRows, Bool.and_eq_true]
        at htake hdrop ⊢
      refine ⟨htake.1, ih n htake.2 ?_⟩
      rwa [show q + 1 + (n : ℤ) = q + (n + 1 : ℕ) by push_cast; ring]

-- The table is evaluated a part at a time: the kernel keeps what it has computed until a
-- declaration is checked.
theorem checkRows_pow10Lemire : checkRows pow10QMin pow10Lemire = true := by
  iterate 7 refine checkRows_of_take_of_drop 82 (by decide +kernel) ?_
  decide +kernel

theorem rowSound_pow10Row {q : ℤ} (hmin : pow10QMin ≤ q) (hmax : q ≤ pow10QMax) :
    RowSound q (pow10Row q) := by
  have hlen : pow10Lemire.length = 651 := by decide +kernel
  unfold pow10QMin pow10QMax at *
  have hi : (q - pow10QMin).toNat < pow10Lemire.length := by
    rw [hlen, pow10QMin]
    omega
  have hget : pow10Lemire[(q - pow10QMin).toNat]? = some (pow10Row q) := by
    rw [pow10Row, List.getD_eq_getElem _ _ hi, List.getElem?_eq_getElem hi]
  have := rowSound_of_checkRows checkRows_pow10Lemire hget
  rwa [Int.toNat_of_nonneg (by unfold pow10QMin; omega), pow10QMin,
    show (-342 : ℤ) + (q - -342) = q by ring] at this

theorem ratio_lt_significand {q : ℤ} (hq : q = -1 ∨ q = -2 ∨ q = -4) :
    ratioNum q (pow10Row q).e < (pow10Row q).significand * ratioDen q (pow10Row q).e := by
  rcases hq with rfl | rfl | rfl <;> decide +kernel

theorem significand_lt_ratio :
    (pow10Row (-3)).significand * ratioDen (-3) (pow10Row (-3)).e <
      ratioNum (-3) (pow10Row (-3)).e := by
  decide +kernel

end Number

end Th8
