import Th8.Number.Binary64
import Th8.Number.ScaleByPow10

/-!
# Decimal digits of a double

`th8ExtractDigits17`: the first 17 decimal digits of a positive double, from one
multiplication with a cached power of ten.  Doubles are bit patterns, words are natural
numbers below `2 ^ 64`, and a digit is a number below ten.
-/

namespace Th8
namespace Number

open List Nat

structure DiyFp where
  f : ℕ
  e : ℤ
deriving DecidableEq

def doubleToDiyFp (rVal : ℕ) : DiyFp :=
  let biased := (rVal >>> 52) &&& 0x7FF
  let f := if biased = 0 then rVal &&& 0xFFFFFFFFFFFFF
    else (rVal &&& 0xFFFFFFFFFFFFF) ||| (1 <<< 52)
  let e : ℤ := if biased = 0 then -1074 else biased - 1075
  let (f, shifts) := normalize 64 f 0
  ⟨f, e - shifts⟩

/-- `th8Mul64Top`: the rounded upper half of a product of two words. -/
def mul64Top (x y : ℕ) : ℕ :=
  let xl := x &&& 0xFFFFFFFF
  let xh := x >>> 32
  let yl := y &&& 0xFFFFFFFF
  let yh := y >>> 32
  let ll := xl * yl
  let hl := xh * yl
  let lh := xl * yh
  let hh := xh * yh
  let mid := (ll >>> 32) + (hl &&& 0xFFFFFFFF) + (lh &&& 0xFFFFFFFF) + (1 <<< 31)
  (hh + (hl >>> 32) + (lh >>> 32) + (mid >>> 32)) % 2 ^ 64

def pow10Sig : List ℕ := [
  0xfa8fd5a0081c0288, 0xbaaee17fa23ebf76, 0x8b16fb203055ac76, 0xcf42894a5dce35ea,
  0x9a6bb0aa55653b2d, 0xe61acf033d1a45df, 0xab70fe17c79ac6ca, 0xff77b1fcbebcdc4f,
  0xbe5691ef416bd60c, 0x8dd01fad907ffc3c, 0xd3515c2831559a83, 0x9d71ac8fada6c9b5,
  0xea9c227723ee8bcb, 0xaecc49914078536d, 0x823c12795db6ce57, 0xc21094364dfb5637,
  0x9096ea6f3848984f, 0xd77485cb25823ac7, 0xa086cfcd97bf97f4, 0xef340a98172aace5,
  0xb23867fb2a35b28e, 0x84c8d4dfd2c63f3b, 0xc5dd44271ad3cdba, 0x936b9fcebb25c996,
  0xdbac6c247d62a584, 0xa3ab66580d5fdaf6, 0xf3e2f893dec3f126, 0xb5b5ada8aaff80b8,
  0x87625f056c7c4a8b, 0xc9bcff6034c13053, 0x964e858c91ba2655, 0xdff9772470297ebd,
  0xa6dfbd9fb8e5b88f, 0xf8a95fcf88747d94, 0xb94470938fa89bcf, 0x8a08f0f8bf0f156b,
  0xcdb02555653131b6, 0x993fe2c6d07b7fac, 0xe45c10c42a2b3b06, 0xaa242499697392d3,
  0xfd87b5f28300ca0e, 0xbce5086492111aeb, 0x8cbccc096f5088cc, 0xd1b71758e219652c,
  0x9c40000000000000, 0xe8d4a51000000000, 0xad78ebc5ac620000, 0x813f3978f8940984,
  0xc097ce7bc90715b3, 0x8f7e32ce7bea5c70, 0xd5d238a4abe98068, 0x9f4f2726179a2245,
  0xed63a231d4c4fb27, 0xb0de65388cc8ada8, 0x83c7088e1aab65db, 0xc45d1df942711d9a,
  0x924d692ca61be758, 0xda01ee641a708dea, 0xa26da3999aef774a, 0xf209787bb47d6b85,
  0xb454e4a179dd1877, 0x865b86925b9bc5c2, 0xc83553c5c8965d3d, 0x952ab45cfa97a0b3,
  0xde469fbd99a05fe3, 0xa59bc234db398c25, 0xf6c69a72a3989f5c, 0xb7dcbf5354e9bece,
  0x88fcf317f22241e2, 0xcc20ce9bd35c78a5, 0x98165af37b2153df, 0xe2a0b5dc971f303a,
  0xa8d9d1535ce3b396, 0xfb9b7cd9a4a7443c, 0xbb764c4ca7a44410, 0x8bab8eefb6409c1a,
  0xd01fef10a657842c, 0x9b10a4e5e9913129, 0xe7109bfba19c0c9d, 0xac2820d9623bf429,
  0x80444b5e7aa7cf85, 0xbf21e44003acdd2d, 0x8e679c2f5e44ff8f, 0xd433179d9c8cb841,
  0x9e19db92b4e31ba9, 0xeb96bf6ebadf77d9, 0xaf87023b9bf0ee6b]

def pow10E : List ℤ := [
  -1220, -1193, -1166, -1140, -1113, -1087, -1060, -1034, -1007, -980, -954, -927, -901, -874,
  -847, -821, -794, -768, -741, -715, -688, -661, -635, -608, -582, -555, -529, -502, -475, -449,
  -422, -396, -369, -343, -316, -289, -263, -236, -210, -183, -157, -130, -103, -77, -50, -24, 3,
  30, 56, 83, 109, 136, 162, 189, 216, 242, 269, 295, 322, 348, 375, 402, 428, 455, 481, 508, 534,
  561, 588, 614, 641, 667, 694, 720, 747, 774, 800, 827, 853, 880, 907, 933, 960, 986, 1013, 1039,
  1066]

/-- `th8GetCachedPow10`: a cached power of ten that brings the product with a number of
binary exponent `eIn` into the working range, and its decimal exponent. -/
def getCachedPow10 (eIn : ℤ) : DiyFp × ℤ :=
  match pow10E.findIdx? fun e => -60 ≤ eIn + e + 64 ∧ eIn + e + 64 ≤ -32 with
  | some i => (⟨pow10Sig.getD i 0, pow10E.getD i 0⟩, -348 + i * 8)
  | none => (⟨1 <<< 63, -63⟩, 0)

/-- The loop that counts the digits of `p1`, from `initialKappa` down. -/
def countDigits (p1 : ℕ) : ℕ → ℕ
  | 0 => 0
  | initialKappa + 1 => if 10 ^ initialKappa ≤ p1 then initialKappa + 1
      else countDigits p1 initialKappa

def leadingDigits : ℕ → ℕ → List ℕ
  | 0, _ => []
  | kappa + 1, p1 => p1 / 10 ^ kappa :: leadingDigits kappa (p1 - p1 / 10 ^ kappa * 10 ^ kappa)

def trailingDigits (shift : ℕ) : ℕ → ℕ → List ℕ
  | 0, _ => []
  | len + 1, p2 =>
    (p2 * 10 % 2 ^ 64) >>> shift ::
      trailingDigits shift len ((p2 * 10 % 2 ^ 64) &&& ((1 <<< shift) - 1))

/-- One round of a loop that adds a carry: the digits behind `d` and the carry out of them
are given. -/
def carryDigit (d : ℕ) (rest : List ℕ × Bool) : List ℕ × Bool :=
  if rest.2 then if 9 < d + 1 then (0 :: rest.1, true) else ((d + 1) :: rest.1, false)
  else (d :: rest.1, false)

def addCarry (carry : Bool) (zDig : List ℕ) : List ℕ × Bool := zDig.foldr carryDigit ([], carry)

/-- Round to `nDig` digits by the digit that follows them.  A carry out of the first digit
becomes the first digit. -/
def roundDigits (zDig : List ℕ) (nDig : ℕ) (expn : ℤ) : List ℕ × ℤ :=
  let carry := match zDig.drop nDig with
    | d :: _ => decide (5 ≤ d)
    | [] => false
  let (zTry, carry) := addCarry carry (zDig.take nDig)
  if carry then (1 :: zTry.dropLast, expn + 1) else (zTry, expn)

/-- The part of `th8ExtractDigits17` after the multiplication: the digits of the product
`wF`, of which the lower `shift` bits are the fraction, and the exponent of the first one. -/
def digitsOfProduct (wF shift : ℕ) (K : ℤ) : List ℕ × ℤ :=
  let p1 := wF >>> shift
  let p2 := wF &&& ((1 <<< shift) - 1)
  let initialKappa := max 1 (countDigits p1 10)
  let zDig := leadingDigits initialKappa p1 ++ trailingDigits shift (18 - initialKappa) p2
  roundDigits zDig 17 (initialKappa - 1 - K)

/-- `th8ExtractDigits17`: the digits and the decimal exponent of the first one. -/
def extractDigits17 (rVal : ℕ) : List ℕ × ℤ :=
  let v := doubleToDiyFp rVal
  let (c, K) := getCachedPow10 v.e
  let wE := v.e + c.e + 64
  digitsOfProduct (mul64Top v.f c.f) (-wE).toNat K

example : (extractDigits17 0x3FB999999999999A).2 = -1 := by decide

/-! ## Digits are below ten -/

theorem leadingDigits_spec {kappa p1 : ℕ} (h : p1 < 10 ^ kappa) :
    (leadingDigits kappa p1).length = kappa ∧ ∀ d ∈ leadingDigits kappa p1, d ≤ 9 := by
  induction kappa generalizing p1 with
  | zero => simp [leadingDigits]
  | succ kappa ih =>
    have hpos : 0 < 10 ^ kappa := by positivity
    have hrest : p1 - p1 / 10 ^ kappa * 10 ^ kappa < 10 ^ kappa := by
      have hmod := mod_lt p1 hpos
      have hdiv := div_add_mod' p1 (10 ^ kappa)
      omega
    have hdigit : p1 / 10 ^ kappa < 10 := by
      rw [Nat.div_lt_iff_lt_mul hpos, ← pow_succ']
      exact h
    obtain ⟨hlength, hle⟩ := ih hrest
    constructor
    · rw [leadingDigits, length_cons, hlength]
    · intro d hd
      rw [leadingDigits] at hd
      rcases mem_cons.mp hd with rfl | hd
      · exact Nat.lt_succ_iff.mp hdigit
      · exact hle d hd

theorem trailingDigits_spec {shift p2 : ℕ} (len : ℕ) (hshift : shift ≤ 60) (h : p2 < 2 ^ shift) :
    (trailingDigits shift len p2).length = len ∧ ∀ d ∈ trailingDigits shift len p2, d ≤ 9 := by
  induction len generalizing p2 with
  | zero => simp [trailingDigits]
  | succ len ih =>
    have hle60 : 2 ^ shift ≤ 2 ^ 60 := Nat.pow_le_pow_right Nat.two_pos hshift
    have hroom : p2 * 10 % 2 ^ 64 = p2 * 10 := mod_eq_of_lt (by omega)
    have hdigit : (p2 * 10) >>> shift ≤ 9 := by
      rw [Nat.shiftRight_eq_div_pow, ← Nat.lt_succ_iff, Nat.div_lt_iff_lt_mul (by positivity)]
      omega
    have hrest : (p2 * 10) &&& ((1 <<< shift) - 1) < 2 ^ shift := by
      rw [one_shiftLeft, and_two_pow_sub_one_eq_mod]
      exact mod_lt _ (by positivity)
    obtain ⟨hlength, hle⟩ := ih hrest
    rw [trailingDigits, hroom]
    constructor
    · rw [length_cons, hlength]
    · intro d hd
      rcases mem_cons.mp hd with rfl | hd
      · exact hdigit
      · exact hle d hd

theorem countDigits_spec {p1 n : ℕ} (h : p1 < 10 ^ n) :
    countDigits p1 n ≤ n ∧ p1 < 10 ^ max 1 (countDigits p1 n) := by
  induction n with
  | zero =>
    rw [pow_zero] at h
    exact ⟨le_rfl, by simp [countDigits]; omega⟩
  | succ n ih =>
    unfold countDigits
    by_cases hbig : 10 ^ n ≤ p1
    · rw [if_pos hbig]
      exact ⟨le_rfl, by rwa [max_eq_right (succ_le_succ (zero_le n))]⟩
    · rw [if_neg hbig]
      obtain ⟨hle, hlt⟩ := ih (Nat.lt_of_not_le hbig)
      exact ⟨hle.trans (le_succ n), hlt⟩

theorem addCarry_spec (carry : Bool) {zDig : List ℕ} (h : ∀ d ∈ zDig, d ≤ 9) :
    (addCarry carry zDig).1.length = zDig.length ∧ ∀ d ∈ (addCarry carry zDig).1, d ≤ 9 := by
  induction zDig with
  | nil => simp [addCarry]
  | cons d zDig ih =>
    obtain ⟨hlength, hle⟩ := ih fun d hd => h d (mem_cons_of_mem _ hd)
    have hd := h d mem_cons_self
    rw [addCarry, foldr_cons, ← addCarry]
    unfold carryDigit
    split_ifs with hcarry hnine
    · simp only [length_cons, hlength, mem_cons, forall_eq_or_imp]
      exact ⟨trivial, zero_le 9, hle⟩
    · simp only [length_cons, hlength, mem_cons, forall_eq_or_imp]
      exact ⟨trivial, Nat.le_of_not_lt hnine, hle⟩
    · simp only [length_cons, hlength, mem_cons, forall_eq_or_imp]
      exact ⟨trivial, hd, hle⟩

theorem roundDigits_spec {zDig : List ℕ} {nDig : ℕ} (expn : ℤ) (hpos : 0 < nDig)
    (hlen : nDig ≤ zDig.length) (h : ∀ d ∈ zDig, d ≤ 9) :
    (roundDigits zDig nDig expn).1.length = nDig ∧ (∀ d ∈ (roundDigits zDig nDig expn).1, d ≤ 9) ∧
      expn ≤ (roundDigits zDig nDig expn).2 ∧ (roundDigits zDig nDig expn).2 ≤ expn + 1 := by
  unfold roundDigits
  simp only
  generalize (match zDig.drop nDig with | d :: _ => decide (5 ≤ d) | [] => false) = carry
  obtain ⟨hlength, hle⟩ := addCarry_spec carry fun d hd => h d (mem_of_mem_take hd)
  rw [length_take_of_le hlen] at hlength
  split_ifs
  · refine ⟨?_, ?_, by simp, by simp⟩
    · rw [length_cons, length_dropLast, hlength]
      omega
    · intro d hd
      rcases mem_cons.mp hd with rfl | hd
      · exact one_le_ofNat
      · exact hle d (dropLast_subset _ hd)
  · exact ⟨hlength, hle, le_rfl, by simp⟩

/-! ## The working range -/

theorem pow10Sig_lt : ∀ sig ∈ pow10Sig, sig < 2 ^ 64 := by decide

theorem exists_mem_window {es : List ℤ} {e lo width : ℤ}
    (hgaps : (e :: es).IsChain fun a b => b ≤ a + width + 1) (hhead : e ≤ lo + width)
    (hlast : ∃ b ∈ e :: es, lo ≤ b) : ∃ a ∈ e :: es, lo ≤ a ∧ a ≤ lo + width := by
  induction es generalizing e with
  | nil =>
    obtain ⟨b, hb, hlo⟩ := hlast
    exact ⟨b, hb, hlo, mem_singleton.mp hb ▸ hhead⟩
  | cons a es ih =>
    by_cases he : lo ≤ e
    · exact ⟨e, mem_cons_self, he, hhead⟩
    · obtain ⟨hgap, hgaps⟩ := isChain_cons_cons.mp hgaps
      obtain ⟨b, hb, hlo⟩ := hlast
      have hmem : b ∈ a :: es := (mem_cons.mp hb).resolve_left fun heq => he (heq ▸ hlo)
      obtain ⟨c, hc, hwindow⟩ := ih hgaps (by omega) ⟨b, hmem, hlo⟩
      exact ⟨c, mem_cons_of_mem e hc, hwindow⟩

theorem exists_pow10E {eIn : ℤ} (hlow : -1138 ≤ eIn) (hhigh : eIn ≤ 971) :
    ∃ e ∈ pow10E, -60 ≤ eIn + e + 64 ∧ eIn + e + 64 ≤ -32 := by
  have hgaps : pow10E.IsChain fun a b => b ≤ a + 28 + 1 := by decide +kernel
  obtain ⟨e, he, hlo, hhi⟩ := exists_mem_window hgaps
    (show -1220 ≤ -124 - eIn + 28 by omega) ⟨1066, by decide, by omega⟩
  exact ⟨e, he, by omega, by omega⟩

theorem getCachedPow10_spec {eIn : ℤ} (hlow : -1138 ≤ eIn) (hhigh : eIn ≤ 971) :
    -60 ≤ eIn + (getCachedPow10 eIn).1.e + 64 ∧ eIn + (getCachedPow10 eIn).1.e + 64 ≤ -32 ∧
      -348 ≤ (getCachedPow10 eIn).2 ∧ (getCachedPow10 eIn).2 ≤ 340 := by
  obtain ⟨e, hmem, he⟩ := exists_pow10E hlow hhigh
  unfold getCachedPow10
  cases hfind : pow10E.findIdx? fun e => -60 ≤ eIn + e + 64 ∧ eIn + e + 64 ≤ -32 with
  | none =>
    have := findIdx?_eq_none_iff.mp hfind e hmem
    exact absurd he (of_decide_eq_false this)
  | some i =>
    obtain ⟨hi, hp, -⟩ := findIdx?_eq_some_iff_getElem.mp hfind
    have hrange := of_decide_eq_true hp
    have hlength : pow10E.length = 87 := rfl
    simp only [getD_eq_getElem _ _ hi]
    exact ⟨hrange.1, hrange.2, by omega, by omega⟩

theorem doubleToDiyFp_spec {rVal : ℕ} (hpos : 0 < rVal) (hfin : rVal < infinityBits) :
    -1138 ≤ (doubleToDiyFp rVal).e ∧ (doubleToDiyFp rVal).e ≤ 971 := by
  have hinf : infinityBits = 2047 * 2 ^ 52 := rfl
  have hfield : (rVal >>> 52) &&& 0x7FF = rVal / 2 ^ 52 := by
    rw [Nat.shiftRight_eq_div_pow, show 0x7FF = 2 ^ 11 - 1 from rfl, and_two_pow_sub_one_eq_mod]
    omega
  have hlow : rVal &&& 0xFFFFFFFFFFFFF = rVal % 2 ^ 52 := by
    rw [show 0xFFFFFFFFFFFFF = 2 ^ 52 - 1 from rfl, and_two_pow_sub_one_eq_mod]
  have hmant : (rVal % 2 ^ 52) ||| (1 <<< 52) = rVal % 2 ^ 52 + 2 ^ 52 := by
    rw [lor_shiftLeft_eq_add (by omega)]
    omega
  unfold doubleToDiyFp
  simp only [hfield, hlow, hmant]
  by_cases hsub : rVal / 2 ^ 52 = 0
  · have hw : 0 < rVal % 2 ^ 52 := by omega
    obtain ⟨k, hk, -, hlt⟩ := @normalize_spec 64 _ 0 hw (by omega) (by omega)
    have hk63 : k < 64 := (Nat.pow_lt_pow_iff_right one_lt_two).mp <|
      lt_of_le_of_lt (Nat.le_mul_of_pos_left _ hw) hlt
    rw [if_pos hsub, if_pos hsub, hk]
    constructor <;> simp only <;> omega
  · have hw : 0 < rVal % 2 ^ 52 + 2 ^ 52 := by omega
    obtain ⟨k, hk, -, hlt⟩ := @normalize_spec 64 _ 0 hw (by omega) (by omega)
    have hk63 : k < 64 := (Nat.pow_lt_pow_iff_right one_lt_two).mp <|
      lt_of_le_of_lt (Nat.le_mul_of_pos_left _ hw) hlt
    rw [if_neg hsub, if_neg hsub, hk]
    constructor <;> simp only <;> omega

theorem digitsOfProduct_spec {wF shift : ℕ} {K : ℤ} (hwF : wF < 2 ^ 64) (hlow : 32 ≤ shift)
    (hhigh : shift ≤ 60) (hKlow : -348 ≤ K) (hKhigh : K ≤ 340) :
    (digitsOfProduct wF shift K).1.length = 17 ∧ (∀ d ∈ (digitsOfProduct wF shift K).1, d ≤ 9) ∧
      -340 ≤ (digitsOfProduct wF shift K).2 ∧ (digitsOfProduct wF shift K).2 ≤ 358 := by
  have hp1 : wF >>> shift < 10 ^ 10 := by
    rw [Nat.shiftRight_eq_div_pow, Nat.div_lt_iff_lt_mul (by positivity)]
    have := Nat.pow_le_pow_right Nat.two_pos hlow
    omega
  have hp2 : wF &&& ((1 <<< shift) - 1) < 2 ^ shift := by
    rw [one_shiftLeft, and_two_pow_sub_one_eq_mod]
    exact mod_lt _ (by positivity)
  obtain ⟨hkappa, hlead⟩ := countDigits_spec hp1
  unfold digitsOfProduct
  simp only
  have hmax : 1 ≤ max 1 (countDigits (wF >>> shift) 10) := le_max_left _ _
  have hmax' : max 1 (countDigits (wF >>> shift) 10) ≤ 10 := max_le (by norm_num) hkappa
  generalize max 1 (countDigits (wF >>> shift) 10) = initialKappa at *
  obtain ⟨hlen₁, hle₁⟩ := leadingDigits_spec hlead
  obtain ⟨hlen₂, hle₂⟩ := trailingDigits_spec (18 - initialKappa) hhigh hp2
  have hlength : 17 ≤ (leadingDigits initialKappa (wF >>> shift) ++ trailingDigits shift
      (18 - initialKappa) (wF &&& ((1 <<< shift) - 1))).length := by
    rw [length_append, hlen₁, hlen₂]
    omega
  obtain ⟨hlength, hle, hexpn, hexpn'⟩ := roundDigits_spec (initialKappa - 1 - K) (by norm_num)
    hlength fun d hd => (mem_append.mp hd).elim (hle₁ d) (hle₂ d)
  exact ⟨hlength, hle, by omega, by omega⟩

theorem extractDigits17_spec {rVal : ℕ} (hpos : 0 < rVal) (hfin : rVal < infinityBits) :
    (extractDigits17 rVal).1.length = 17 ∧ (∀ d ∈ (extractDigits17 rVal).1, d ≤ 9) ∧
      -340 ≤ (extractDigits17 rVal).2 ∧ (extractDigits17 rVal).2 ≤ 358 := by
  obtain ⟨helow, hehigh⟩ := doubleToDiyFp_spec hpos hfin
  obtain ⟨hwlow, hwhigh, hKlow, hKhigh⟩ := getCachedPow10_spec helow hehigh
  have hwF : mul64Top (doubleToDiyFp rVal).f (getCachedPow10 (doubleToDiyFp rVal).e).1.f <
      2 ^ 64 := mod_lt _ (by norm_num)
  have heq : extractDigits17 rVal = digitsOfProduct
      (mul64Top (doubleToDiyFp rVal).f (getCachedPow10 (doubleToDiyFp rVal).e).1.f)
      (-((doubleToDiyFp rVal).e + (getCachedPow10 (doubleToDiyFp rVal).e).1.e + 64)).toNat
      (getCachedPow10 (doubleToDiyFp rVal).e).2 := rfl
  rw [heq]
  exact digitsOfProduct_spec hwF (by omega) (by omega) hKlow hKhigh

end Number
end Th8
