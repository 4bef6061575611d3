import Th8.Number.Binary64
import Th8.Number.ScaleByPow10

/-!
# Correct rounding

The scaling function rounds its 192-bit product correctly, and the product lies on the
same side of every midpoint as the exact number, unless the exact number is a midpoint
itself.  What is left are the ties that an inexact entry of the table breaks, and the
numbers between half the least subnormal number and that number, which the function
drops.
-/

namespace Th8
namespace Number

open Support Int

def productValue (M : ℕ) (row : CachedPower) : ℚ := M * row.significand * 2 ^ row.e

variable {k : ℤ}

theorem exists_multiple {s : ℕ} {f : ℤ} (hs : s < 2 ^ 54) (h : (2 : ℚ) ^ (190 + f) ≤ s * 2 ^ k) :
    ∃ n : ℕ, (s : ℚ) * 2 ^ k = n * 2 ^ 137 * 2 ^ f := by
  have hlt : (2 : ℚ) ^ (190 + f) < 2 ^ (54 + k) := by
    calc (2 : ℚ) ^ (190 + f) ≤ s * 2 ^ k := h
      _ < 2 ^ 54 * 2 ^ k := by
        refine mul_lt_mul_of_pos_right ?_ (by positivity)
        exact_mod_cast hs
      _ = 2 ^ (54 + k) := by
        rw [zpow_add₀ two_ne_zero]
        norm_num
  have hexp : 190 + f < 54 + k := (zpow_lt_zpow_iff_right₀ one_lt_two).mp hlt
  obtain ⟨j, hj⟩ := eq_ofNat_of_zero_le (show 0 ≤ k - 137 - f by omega)
  refine ⟨s * 2 ^ j, ?_⟩
  rw [show k = j + 137 + f by omega, zpow_add₀ two_ne_zero, zpow_add₀ two_ne_zero, zpow_natCast]
  push_cast
  norm_num
  ring

section Separation

variable {q : ℤ} {row : CachedPower} {M lz : ℕ}

theorem exact_eq (M lz : ℕ) (q e : ℤ) :
    (M : ℚ) * 10 ^ q = (M * 2 ^ lz : ℕ) * ratioNum q e / ratioDen q e * 2 ^ (e - lz) := by
  rw [ten_zpow_eq q e, zpow_sub₀ two_ne_zero, zpow_natCast]
  push_cast
  field_simp

theorem productValue_eq (M lz : ℕ) (row : CachedPower) :
    productValue M row = (M * 2 ^ lz : ℕ) * row.significand * 2 ^ (row.e - lz) := by
  rw [productValue, zpow_sub₀ two_ne_zero, zpow_natCast]
  push_cast
  field_simp

theorem RowSound.not_between (h : RowSound q row) (hq : q < 0 ∨ 55 < q)
    (hw : 2 ^ 63 ≤ M * 2 ^ lz) (hw' : M * 2 ^ lz < 2 ^ 64) {s : ℕ} (hs : s < 2 ^ 54) (k : ℤ) :
    ¬ ((M : ℚ) * 10 ^ q < s * 2 ^ k ∧ (s : ℚ) * 2 ^ k ≤ productValue M row) ∧
      ¬ (productValue M row ≤ s * 2 ^ k ∧ (s : ℚ) * 2 ^ k < M * 10 ^ q) := by
  obtain ⟨p, hp⟩ := h.separated hq
  have hden : (0 : ℚ) < ratioDen q row.e := by exact_mod_cast ratioDen_pos q row.e
  have hscale : (0 : ℚ) < 2 ^ (row.e - lz) := by positivity
  have hsplit : (2 : ℚ) ^ (190 + (row.e - lz)) = 2 ^ 190 * 2 ^ (row.e - lz) := by
    rw [zpow_add₀ two_ne_zero]
    norm_num
  rw [exact_eq M lz q row.e, productValue_eq M lz row]
  constructor
  · rintro ⟨hlow, hhigh⟩
    have hbig : (2 : ℚ) ^ (190 + (row.e - lz)) ≤ s * 2 ^ k := by
      refine le_trans ?_ hlow.le
      rw [hsplit]
      refine mul_le_mul_of_nonneg_right ?_ hscale.le
      rw [le_div_iff₀ hden]
      have := Nat.mul_le_mul hw h.le_ratio
      exact_mod_cast (show 2 ^ 190 * ratioDen q row.e ≤ M * 2 ^ lz * ratioNum q row.e by
        calc 2 ^ 190 * ratioDen q row.e = 2 ^ 63 * (2 ^ 127 * ratioDen q row.e) := by ring
          _ ≤ M * 2 ^ lz * ratioNum q row.e := this)
    obtain ⟨n, hn⟩ := exists_multiple hs hbig
    rw [hn] at hlow hhigh
    have hlow' := (div_lt_iff₀ hden).mp (lt_of_mul_lt_mul_right hlow hscale.le)
    have hhigh' := le_of_mul_le_mul_right hhigh hscale
    exact (hp.no_multiple (n := n) (ratioDen_pos q row.e) (by omega) hw').1
      ⟨by exact_mod_cast hlow', by exact_mod_cast hhigh'⟩
  · rintro ⟨hlow, hhigh⟩
    have hbig : (2 : ℚ) ^ (190 + (row.e - lz)) ≤ s * 2 ^ k := by
      refine le_trans ?_ hlow
      rw [hsplit]
      refine mul_le_mul_of_nonneg_right ?_ hscale.le
      have := Nat.mul_le_mul hw h.le_significand
      exact_mod_cast (show 2 ^ 190 ≤ M * 2 ^ lz * row.significand by
        calc 2 ^ 190 = 2 ^ 63 * 2 ^ 127 := by norm_num
          _ ≤ M * 2 ^ lz * row.significand := this)
    obtain ⟨n, hn⟩ := exists_multiple hs hbig
    rw [hn] at hlow hhigh
    have hlow' := le_of_mul_le_mul_right hlow hscale
    have hhigh' := (lt_div_iff₀ hden).mp (lt_of_mul_lt_mul_right hhigh hscale.le)
    exact (hp.no_multiple (n := n) (ratioDen_pos q row.e) (by omega) hw').2
      ⟨by exact_mod_cast hlow', by exact_mod_cast hhigh'⟩

theorem RowSound.productValue_eq (h : RowSound q row) (hlow : 0 ≤ q) (hhigh : q ≤ 55) :
    productValue M row = M * 10 ^ q := by
  have hden : (ratioDen q row.e : ℚ) ≠ 0 := by exact_mod_cast (ratioDen_pos q row.e).ne'
  rw [ten_zpow_eq q row.e, ← h.exact hlow hhigh, productValue]
  push_cast
  field_simp

end Separation

/-! ## Rounding the product -/

theorem bignumSides_spec (M : ℕ) (q : ℤ) (midM : ℕ) (midE : ℤ) :
    ∃ t : ℚ, 0 < t ∧ ((bignumSides M q midM midE).1 : ℚ) = M * 10 ^ q * t ∧
      ((bignumSides M q midM midE).2 : ℚ) = midM * 2 ^ midE * t := by
  have hcast : ∀ (a : ℚ) (k : ℤ), 0 ≤ k → a ^ k.toNat = a ^ k := by
    intro a k hk
    rw [← zpow_natCast, toNat_of_nonneg hk]
  unfold bignumSides
  split_ifs with hq hmid
  · refine ⟨1, one_pos, ?_, ?_⟩
    · push_cast
      rw [hcast 10 q hq, mul_one]
    · push_cast
      rw [hcast 2 midE hmid, mul_one]
  · refine ⟨2 ^ (-midE), by positivity, ?_, ?_⟩
    · push_cast
      rw [hcast 10 q hq, hcast 2 (-midE) (by omega)]
    · rw [mul_assoc (midM : ℚ), ← zpow_add₀ two_ne_zero, add_neg_cancel, zpow_zero, mul_one]
  · have hten : (10 : ℚ) ^ q * (5 ^ (-q) * 2 ^ (-q)) = 1 := by
      rw [← mul_zpow, show (5 : ℚ) * 2 = 10 by norm_num, ← zpow_add₀ (by norm_num), add_neg_cancel,
        zpow_zero]
    by_cases hextra : 0 ≤ midE + -q
    · refine ⟨5 ^ (-q) * 2 ^ (-q), by positivity, ?_, ?_⟩
      · rw [if_pos hextra, mul_assoc (M : ℚ), hten, mul_one]
      · rw [if_pos hextra]
        push_cast
        rw [hcast 5 (-q) (by omega), hcast 2 _ hextra, zpow_add₀ two_ne_zero]
        ring
    · refine ⟨5 ^ (-q) * 2 ^ (-q) * 2 ^ (-(midE + -q)), by positivity, ?_, ?_⟩
      · rw [if_neg hextra]
        push_cast
        rw [hcast 2 _ (by omega)]
        linear_combination -(M : ℚ) * 2 ^ (-(midE + -q)) * hten
      · have htwo : (2 : ℚ) ^ midE * (2 ^ (-q) * 2 ^ (-(midE + -q))) = 1 := by
          rw [← zpow_add₀ two_ne_zero, ← zpow_add₀ two_ne_zero,
            show midE + (-q + -(midE + -q)) = 0 by ring, zpow_zero]
        rw [if_neg hextra]
        push_cast
        rw [hcast 5 (-q) (by omega)]
        linear_combination -(midM : ℚ) * 5 ^ (-q) * htwo

theorem bignumDecideRound_iff (M : ℕ) (q : ℤ) (m : ℕ) (biasedExp : ℤ) :
    bignumDecideRound M q m biasedExp = true ↔
      ((2 * m + 1 : ℕ) : ℚ) * 2 ^ (binaryExponent biasedExp - 1) < M * 10 ^ q ∨
        ((2 * m + 1 : ℕ) : ℚ) * 2 ^ (binaryExponent biasedExp - 1) = M * 10 ^ q ∧ ¬ Even m := by
  obtain ⟨t, ht, hA, hB⟩ := bignumSides_spec M q (2 * m + 1) (binaryExponent biasedExp - 1)
  have hodd : (m &&& 1 == 1) = true ↔ ¬ Even m := by
    rw [beq_iff_eq, Nat.and_one_is_mod, Nat.even_iff]
    omega
  simp only [bignumDecideRound]
  generalize bignumSides M q (2 * m + 1) (binaryExponent biasedExp - 1) = sides at *
  generalize ((2 * m + 1 : ℕ) : ℚ) * 2 ^ (binaryExponent biasedExp - 1) = mid at *
  generalize (M : ℚ) * 10 ^ q = x at *
  have hlt : sides.2 < sides.1 ↔ mid < x := by
    rw [← Nat.cast_lt (α := ℚ), hA, hB, mul_lt_mul_iff_left₀ ht]
  have hgt : sides.1 < sides.2 ↔ x < mid := by
    rw [← Nat.cast_lt (α := ℚ), hA, hB, mul_lt_mul_iff_left₀ ht]
  rcases lt_trichotomy mid x with h | h | h
  · rw [if_pos (hlt.mpr h)]
    exact iff_of_true rfl (.inl h)
  · rw [if_neg (by rw [hlt, h]; exact lt_irrefl x), if_neg (by rw [hgt, h]; exact lt_irrefl x),
      hodd]
    exact ⟨fun hm => .inr ⟨h, hm⟩, fun hx => hx.elim (fun hlt => absurd h hlt.ne) And.right⟩
  · rw [if_neg (mt hlt.mp h.not_gt), if_pos (hgt.mpr h)]
    refine iff_of_false (by simp) ?_
    rintro (hx | ⟨hx, -⟩)
    · exact h.not_gt hx
    · exact h.ne' hx

theorem midpoint_compare (N j : ℕ) :
    ((2 * (N / 2 ^ (j + 1)) + 1) * 2 ^ j < N ↔ N / 2 ^ j % 2 ≠ 0 ∧ N % 2 ^ j ≠ 0) ∧
      ((2 * (N / 2 ^ (j + 1)) + 1) * 2 ^ j = N ↔ N / 2 ^ j % 2 ≠ 0 ∧ N % 2 ^ j = 0) := by
  have hpos : 0 < 2 ^ j := by positivity
  have hsplit := Nat.div_add_mod N (2 ^ j)
  have hlt := Nat.mod_lt N hpos
  rw [Nat.pow_succ, ← Nat.div_div_eq_div_mul]
  generalize N / 2 ^ j = a at *
  generalize N % 2 ^ j = r at *
  generalize 2 ^ j = T at *
  rcases Nat.even_or_odd' a with ⟨c, rfl | rfl⟩
  · rw [Nat.mul_div_cancel_left c two_pos]
    have hexp : (2 * c + 1) * T = T * (2 * c) + T := by ring
    omega
  · rw [show (2 * c + 1) / 2 = c by omega]
    have hexp : (2 * c + 1) * T = T * (2 * c + 1) := by ring
    omega

variable {M : ℕ} {q : ℤ}

theorem isNearest_of_candidate {N j e b : ℕ} {biased : ℤ} (hsig : significand b = N / 2 ^ (j + 1))
    (hexp : exponent b = j + 1 + (biased - 1214)) (hbin : binaryExponent e = exponent b)
    (hb : b < infinityBits) (htie : (N : ℚ) * 2 ^ (biased - 1214) = halfway binary64 b → (N : ℚ) * 2
      ^ (biased - 1214) = M * 10 ^ q) :
    IsNearest binary64 infinityBits ((N : ℚ) * 2 ^ (biased - 1214))
      (if roundUp true M q (N / 2 ^ (j + 1)) (N / 2 ^ j % 2) (N % 2 ^ j) e then b + 1
        else b) := by
  have hv : (0 : ℚ) < 2 ^ (biased - 1214) := by positivity
  have hscale : (2 : ℚ) ^ exponent b = (2 ^ (j + 1) : ℕ) * 2 ^ (biased - 1214) := by
    rw [hexp, zpow_add₀ two_ne_zero, ← Nat.cast_add_one, zpow_natCast]
    push_cast
    rfl
  have hscale' : (2 : ℚ) ^ (exponent b - 1) = (2 ^ j : ℕ) * 2 ^ (biased - 1214) := by
    rw [hexp, show (j : ℤ) + 1 + (biased - 1214) - 1 = j + (biased - 1214) by ring,
      zpow_add₀ two_ne_zero, zpow_natCast]
    push_cast
    rfl
  have hmid : halfway binary64 b =
      ((2 * (N / 2 ^ (j + 1)) + 1) * 2 ^ j : ℕ) * 2 ^ (biased - 1214) := by
    rw [halfway_binary64, hscale', hsig]
    push_cast
    ring
  obtain ⟨hgt, heq⟩ := midpoint_compare N j
  have hgt' : halfway binary64 b < N * 2 ^ (biased - 1214) ↔ N / 2 ^ j % 2 ≠ 0 ∧ N % 2 ^ j ≠ 0 := by
    rw [← hgt, hmid, mul_lt_mul_iff_left₀ hv, Nat.cast_lt]
  have heq' : halfway binary64 b = N * 2 ^ (biased - 1214) ↔ N / 2 ^ j % 2 ≠ 0 ∧ N % 2 ^ j = 0 := by
    rw [← heq, hmid, mul_left_inj' hv.ne', Nat.cast_inj]
  have hparity : Even (N / 2 ^ (j + 1)) ↔ Even b := by
    rw [← hsig, even_significand_iff]
  have hdivmod := Nat.div_add_mod N (2 ^ (j + 1))
  have hmod := Nat.mod_lt N (show 0 < 2 ^ (j + 1) by positivity)
  refine isNearest_of_bracket binary64_strictMono hb ?_ ?_ _ ?_
  · rw [binary64, hscale, hsig, ← mul_assoc]
    refine mul_le_mul_of_nonneg_right ?_ hv.le
    exact_mod_cast Nat.div_mul_le_self N (2 ^ (j + 1))
  · rw [binary64_succ, hscale, hsig, ← mul_assoc]
    refine mul_lt_mul_of_pos_right ?_ hv
    exact_mod_cast Nat.lt_mul_of_div_lt (Nat.lt_succ_self _) (by positivity)
  · by_cases hhalf : N / 2 ^ j % 2 ≠ 0 ∧ N % 2 ^ j = 0
    · -- the exact comparison decides, and the product is the exact number
      have hmidY := heq'.mpr hhalf
      have hexact := htie hmidY.symm
      rw [roundUp, if_pos hhalf, if_pos rfl, bignumDecideRound_iff, hbin, ← hexact,
        halfway_binary64, hsig, hparity]
    · rw [roundUp, if_neg hhalf, hgt', heq', decide_eq_true_eq, Nat.and_one_is_mod]
      rw [not_and] at hhalf
      constructor
      · rintro ⟨hround, -⟩
        exact .inl ⟨hround, hhalf hround⟩
      · rintro (⟨hround, hsticky⟩ | ⟨⟨hround, hzero⟩, -⟩)
        · exact ⟨hround, .inl hsticky⟩
        · exact absurd hzero (hhalf hround)

theorem isNearest_roundProduct {N : ℕ} {biased : ℤ} (hlow : 2 ^ 191 ≤ N) (hhigh : N < 2 ^ 192)
    (hbiased : -51 ≤ biased) (htie : ∀ b, (N : ℚ) * 2 ^ (biased - 1214) = halfway binary64 b → (N :
      ℚ) * 2 ^ (biased - 1214) = M * 10 ^ q) :
    IsNearest binary64 infinityBits ((N : ℚ) * 2 ^ (biased - 1214))
      (roundProduct true M q N biased) := by
  unfold roundProduct
  by_cases hinf : 0x7FF ≤ biased
  · rw [if_pos hinf]
    refine isNearest_top binary64_strictMono fun a ha => ?_
    calc halfway binary64 a < binary64 (a + 1) := halfway_lt binary64_strictMono a
      _ = 2 ^ (191 : ℤ) * 2 ^ (833 : ℤ) := by
        rw [ha, binary64_infinityBits, ← zpow_add₀ two_ne_zero]
        rfl
      _ ≤ N * 2 ^ (biased - 1214) := by
        refine mul_le_mul ?_ ?_ (by positivity) (by positivity)
        · exact_mod_cast hlow
        · exact zpow_le_zpow_right₀ one_le_two (by omega)
  rw [if_neg hinf, if_neg (by omega)]
  by_cases hnormal : 0 < biased
  · obtain ⟨e, rfl⟩ := eq_ofNat_of_zero_le hnormal.le
    have he : 0 < e := by omega
    have hm : 2 ^ 52 ≤ N / 2 ^ 139 ∧ N / 2 ^ 139 < 2 ^ 53 := by omega
    obtain ⟨hsig, hexp⟩ := significand_of_biased he hm.1 hm.2
    have hwf : WellFormed e (N / 2 ^ 139) := .inl ⟨he, by omega, hm⟩
    simp only [droppedBits, if_pos hnormal, max_eq_left hnormal.le, Nat.add_one_sub_one]
    rw [roundAndPack_eq hwf, pack_normal he hm.1 hm.2]
    refine isNearest_of_candidate (j := 138) hsig ?_ ?_ ?_ (htie _)
    · rw [hexp]
      push_cast
      ring
    · rw [hexp, binaryExponent, if_pos hnormal]
    · unfold infinityBits
      omega
  · obtain ⟨j, hj⟩ := eq_ofNat_of_zero_le (show 0 ≤ 139 - biased by omega)
    have hk : (140 - biased).toNat = j + 1 := by omega
    have hm : N / 2 ^ (j + 1) < 2 ^ 52 := by
      rw [Nat.div_lt_iff_lt_mul (by positivity), ← Nat.pow_add]
      exact hhigh.trans_le (Nat.pow_le_pow_right two_pos (by omega))
    have hwf : WellFormed 0 (N / 2 ^ (j + 1)) := .inr ⟨rfl, hm⟩
    simp only [droppedBits, if_neg hnormal, max_eq_right (not_lt.mp hnormal), hk,
      Nat.add_one_sub_one]
    rw [show (0 : ℤ) = (0 : ℕ) from rfl, roundAndPack_eq hwf, Nat.cast_zero, pack_subnormal hm]
    refine isNearest_of_candidate (e := 0) ?_ ?_ ?_ ?_ (htie _)
    · rw [significand, if_pos hm]
    · rw [exponent, if_pos hm]
      omega
    · rw [exponent, if_pos hm]
      rfl
    · unfold infinityBits
      omega

theorem scaleByPow10_spec (hpos : 0 < M) (hM : M < 2 ^ 64) (hmin : pow10QMin ≤ q)
    (hmax : q ≤ pow10QMax) :
    (∃ lz, 2 ^ 63 ≤ M * 2 ^ lz ∧ M * 2 ^ lz < 2 ^ 64) ∧
      (productValue M (pow10Row q) < 2 ^ (-1074 : ℤ) → scaleByPow10 true M q = 0) ∧
      (2 ^ (-1074 : ℤ) ≤ productValue M (pow10Row q) →
        (∀ b, productValue M (pow10Row q) = halfway binary64 b →
          productValue M (pow10Row q) = M * 10 ^ q) →
        IsNearest binary64 infinityBits (productValue M (pow10Row q)) (scaleByPow10 true M q)) := by
  have hrow := rowSound_pow10Row hmin hmax
  obtain ⟨lz, ub, N, hw, hw', hN, hlow, hhigh, heq⟩ := scaleByPow10_eq_roundProduct true
    hpos hM hmin hmax hrow.hi_lt hrow.lo_lt hrow.le_significand
  have hvalue : productValue M (pow10Row q) =
      N * 2 ^ (1213 + (ub : ℤ) + (pow10Row q).e - lz - 1214) := by
    have hN' : (N : ℚ) * 2 ^ ub = M * 2 ^ lz * (pow10Row q).significand * 2 := by
      exact_mod_cast hN
    rw [show 1213 + (ub : ℤ) + (pow10Row q).e - lz - 1214 = ub + ((pow10Row q).e - lz - 1) by ring,
      zpow_add₀ two_ne_zero, zpow_natCast, ← mul_assoc, hN', zpow_sub₀ two_ne_zero,
      zpow_sub₀ two_ne_zero, zpow_natCast, zpow_one, productValue]
    field_simp
  refine ⟨⟨lz, hw, hw'⟩, fun hsmall => ?_, fun hlarge htie => ?_⟩
  · have hbiased : 1213 + (ub : ℤ) + (pow10Row q).e - lz < -51 := by
      by_contra hge
      refine absurd hsmall (not_lt.mpr ?_)
      rw [hvalue]
      calc (2 : ℚ) ^ (-1074 : ℤ) = 2 ^ (191 : ℤ) * 2 ^ (-1265 : ℤ) := by
            rw [← zpow_add₀ two_ne_zero]
            rfl
        _ ≤ N * 2 ^ (1213 + (ub : ℤ) + (pow10Row q).e - lz - 1214) := by
            refine mul_le_mul ?_ ?_ (by positivity) (by positivity)
            · exact_mod_cast hlow
            · exact zpow_le_zpow_right₀ one_le_two (by omega)
    rw [heq, roundProduct, if_neg (by omega), if_pos hbiased]
  · have hbiased : -51 ≤ 1213 + (ub : ℤ) + (pow10Row q).e - lz := by
      by_contra hlt
      refine absurd hlarge (not_le.mpr ?_)
      rw [hvalue]
      calc (N : ℚ) * 2 ^ (1213 + (ub : ℤ) + (pow10Row q).e - lz - 1214)
          < 2 ^ (192 : ℤ) * 2 ^ (-1266 : ℤ) := by
            refine mul_lt_mul ?_ ?_ (by positivity) (by positivity)
            · exact_mod_cast hhigh
            · exact zpow_le_zpow_right₀ one_le_two (by omega)
        _ = 2 ^ (-1074 : ℤ) := by
            rw [← zpow_add₀ two_ne_zero]
            rfl
    rw [heq, hvalue]
    rw [hvalue] at htie
    exact isNearest_roundProduct hlow hhigh hbiased htie

variable {o : ℕ}

theorem nat_eq_of_scaled_eq (h : (M : ℚ) * 10 ^ q = o * 2 ^ k) :
    M * 10 ^ q.toNat * 2 ^ (-k).toNat = o * 10 ^ (-q).toNat * 2 ^ k.toNat := by
  rw [← zpow_toNat_div 10 q,
    ← zpow_toNat_div 2 k] at h
  have h₁ : (10 : ℚ) ^ (-q).toNat ≠ 0 := by positivity
  have h₂ : (2 : ℚ) ^ (-k).toNat ≠ 0 := by positivity
  field_simp at h
  have h' : (M : ℚ) * 10 ^ q.toNat * 2 ^ (-k).toNat = o * 10 ^ (-q).toNat * 2 ^ k.toNat := by
    linear_combination h
  exact_mod_cast h'

theorem le_of_scaled_eq (ho : Odd o) (hq : q < 0) (h : (M : ℚ) * 10 ^ q = o * 2 ^ k) :
    q ≤ k ∧ o * 5 ^ (-q).toNat ≤ M := by
  have hnat := nat_eq_of_scaled_eq h
  rw [toNat_of_nonpos hq.le, pow_zero, mul_one, show (10 : ℕ) = 5 * 2 from rfl, Nat.mul_pow] at hnat
  have hodd : Odd (o * 5 ^ (-q).toNat) := ho.mul (Odd.pow (by decide))
  have hle : q ≤ k := by
    by_contra hlt
    obtain ⟨j, hj⟩ := eq_ofNat_of_zero_le (show 0 ≤ q - k - 1 by omega)
    have heven : M * 2 ^ (j + 1) = o * 5 ^ (-q).toNat := by
      refine Nat.eq_of_mul_eq_mul_right (show 0 < 2 ^ (-q).toNat by positivity) ?_
      rw [toNat_of_nonpos (show k ≤ 0 by omega), pow_zero, mul_one] at hnat
      rw [mul_assoc, ← Nat.pow_add, show j + 1 + (-q).toNat = (-k).toNat by omega, hnat]
      ring
    rw [← heven, Nat.odd_mul] at hodd
    refine absurd hodd.2 (Nat.not_odd_iff_even.mpr ?_)
    exact Even.pow_of_ne_zero even_two (by omega)
  refine ⟨hle, ?_⟩
  refine Nat.le_of_mul_le_mul_right (c := 2 ^ (-k).toNat) ?_ (by positivity)
  rw [hnat]
  calc o * 5 ^ (-q).toNat * 2 ^ (-k).toNat
      ≤ o * 5 ^ (-q).toNat * (2 ^ (-q).toNat * 2 ^ k.toNat) := by
        rw [← Nat.pow_add]
        exact Nat.mul_le_mul_left _ (Nat.pow_le_pow_right two_pos (by omega))
    _ = o * (5 ^ (-q).toNat * 2 ^ (-q).toNat) * 2 ^ k.toNat := by ring

theorem five_pow_dvd_of_scaled_eq (hq : 0 ≤ q) (h : (M : ℚ) * 10 ^ q = o * 2 ^ k) :
    5 ^ q.toNat ∣ o := by
  have hnat := nat_eq_of_scaled_eq h
  rw [toNat_of_nonpos (show -q ≤ 0 by omega), pow_zero, mul_one, show (10 : ℕ) = 5 * 2 from rfl,
    Nat.mul_pow] at hnat
  have hcoprime : Nat.Coprime (5 ^ q.toNat) (2 ^ k.toNat) := Nat.Coprime.pow _ _ (by decide)
  refine hcoprime.dvd_of_dvd_mul_right ?_
  rw [← hnat]
  exact ⟨M * 2 ^ q.toNat * 2 ^ (-k).toNat, by ring⟩

theorem exponent_of_midpoint {b : ℕ} (hpos : 0 < M) (hM : M < 2 ^ 64) (hmin : pow10QMin ≤ q)
    (hq : q < 0 ∨ 55 < q) (h : (M : ℚ) * 10 ^ q = halfway binary64 b) :
    (q = -1 ∨ q = -2 ∨ q = -4) ∨ q = -3 := by
  rw [halfway_binary64] at h
  have hsig := significand_lt b
  unfold pow10QMin at hmin
  rcases hq with hq | hq
  · obtain ⟨hle, hmul⟩ := le_of_scaled_eq ⟨significand b, rfl⟩ hq h
    have hnormal := le_significand (b := b) (by omega)
    have hfour : (-q).toNat ≤ 4 := by
      by_contra hgt
      have hfive : 5 ^ 5 ≤ 5 ^ (-q).toNat := Nat.pow_le_pow_right (by norm_num) (by omega)
      have := Nat.mul_le_mul (show 2 ^ 53 ≤ 2 * significand b + 1 by omega) hfive
      omega
    omega
  · have hdvd := five_pow_dvd_of_scaled_eq (by omega) h
    have hle := Nat.le_of_dvd (Nat.succ_pos _) hdvd
    have hfive : 5 ^ 56 ≤ 5 ^ q.toNat := Nat.pow_le_pow_right (by norm_num) (by omega)
    omega

/-! ## Correctness -/

/-- The inputs on which the function rounds correctly.  It drops what lies between half the
least subnormal number and that number, and an inexact power of ten moves a tie off its
midpoint: up for three exponents, down for one. -/
structure RoundsCorrectly (M : ℕ) (q : ℤ) : Prop where
  not_dropped : ¬ ((2 : ℚ) ^ (-1075 : ℤ) < M * 10 ^ q ∧ (M : ℚ) * 10 ^ q < 2 ^ (-1074 : ℤ))
  tie_up : q = -1 ∨ q = -2 ∨ q = -4 →
    ∀ b < infinityBits, (M : ℚ) * 10 ^ q = halfway binary64 b → ¬ Even b
  tie_down : q = -3 → ∀ b < infinityBits, (M : ℚ) * 10 ^ q = halfway binary64 b → Even b

section Correctness

variable {M : ℕ} {q : ℤ}

theorem isNearest_zero_iff {x : ℚ} : IsNearest binary64 infinityBits x 0 ↔ x ≤ 2 ^ (-1075 : ℤ) := by
  rw [isNearest_iff binary64_strictMono, halfway_zero]
  constructor
  · rintro ⟨-, -, h⟩
    rcases h (by decide) with h | ⟨h, -⟩
    · exact h.le
    · exact h.le
  · intro h
    refine ⟨Nat.zero_le _, fun a ha => absurd ha (Nat.succ_ne_zero a), fun _ => ?_⟩
    rcases h.lt_or_eq with h | h
    · exact .inl h
    · exact .inr ⟨h, Even.zero⟩

variable {lz b : ℕ}

section

variable (hmin : pow10QMin ≤ q)

include hmin

section

variable (hmax : q ≤ pow10QMax)

include hmax

section

variable (hq : q < 0 ∨ 55 < q)

include hq

section

variable (hw : 2 ^ 63 ≤ M * 2 ^ lz)

include hw

theorem isNearest_productValue_of_midpoint (hw' :
    M * 2 ^ lz < 2 ^ 64)
    (hb : b < infinityBits) (h : (M : ℚ) * 10 ^ q = halfway binary64 b) :
    (halfway binary64 b < productValue M (pow10Row q) →
        IsNearest binary64 infinityBits (productValue M (pow10Row q)) (b + 1)) ∧
      (productValue M (pow10Row q) < halfway binary64 b →
        IsNearest binary64 infinityBits (productValue M (pow10Row q)) b) := by
  have hrow := rowSound_pow10Row hmin hmax
  have hbetween : ∀ c, ¬ ((M : ℚ) * 10 ^ q < halfway binary64 c ∧
      halfway binary64 c ≤ productValue M (pow10Row q)) ∧
      ¬ (productValue M (pow10Row q) ≤ halfway binary64 c ∧
        halfway binary64 c < (M : ℚ) * 10 ^ q) := by
    intro c
    rw [halfway_binary64]
    exact hrow.not_between hq hw hw' (by have := significand_lt c; omega) _
  rw [isNearest_iff binary64_strictMono, isNearest_iff binary64_strictMono]
  constructor
  · intro habove
    refine ⟨hb, fun a ha => ?_, fun _ => .inl ?_⟩
    · obtain rfl : a = b := by omega
      exact .inl habove
    · by_contra hge
      refine (hbetween (b + 1)).1 ⟨?_, not_lt.mp hge⟩
      rw [h]
      exact halfway_lt_halfway binary64_strictMono (Nat.lt_succ_self b)
  · intro hbelow
    refine ⟨hb.le, fun a ha => .inl ?_, fun _ => .inl hbelow⟩
    by_contra hge
    refine (hbetween a).2 ⟨not_lt.mp hge, ?_⟩
    rw [h]
    exact halfway_lt_halfway binary64_strictMono (by omega)

theorem isNearest_iff_productValue (hw' :
    M * 2 ^ lz < 2 ^ 64)
    (htie : ∀ b < infinityBits, (M : ℚ) * 10 ^ q ≠ halfway binary64 b) (r : ℕ) :
    IsNearest binary64 infinityBits ((M : ℚ) * 10 ^ q) r ↔
      IsNearest binary64 infinityBits (productValue M (pow10Row q)) r := by
  have hrow := rowSound_pow10Row hmin hmax
  refine isNearest_congr binary64_strictMono fun a ha => ?_
  have hne := htie a ha
  obtain ⟨hup, hdown⟩ := hrow.not_between hq hw hw'
    (show 2 * significand a + 1 < 2 ^ 54 by have := significand_lt a; omega) (exponent a - 1)
  rw [← halfway_binary64] at hup hdown
  constructor
  · constructor
    · exact fun h => not_le.mp fun hle => hdown ⟨hle, h⟩
    · exact fun h => lt_of_le_of_ne (not_lt.mp fun hlt => hup ⟨hlt, h.le⟩) (Ne.symm hne)
  · constructor
    · exact fun h => not_le.mp fun hle => hup ⟨h, hle⟩
    · exact fun h => lt_of_le_of_ne (not_lt.mp fun hlt => hdown ⟨h.le, hlt⟩) hne

theorem lt_least_iff (hw' : M * 2 ^ lz < 2 ^ 64) :
    (M : ℚ) * 10 ^ q < 2 ^ (-1074 : ℤ) ↔ productValue M (pow10Row q) < 2 ^ (-1074 : ℤ) := by
  have hrow := rowSound_pow10Row hmin hmax
  obtain ⟨hup, hdown⟩ := hrow.not_between hq hw hw' (show 1 < 2 ^ 54 by norm_num) (-1074)
  rw [Nat.cast_one, one_mul] at hup hdown
  constructor
  · exact fun h => not_le.mp fun hle => hup ⟨h, hle⟩
  · intro h
    refine lt_of_le_of_ne (not_lt.mp fun hlt => hdown ⟨h.le, hlt⟩) fun heq => ?_
    -- the least subnormal number is no decimal fraction of the table
    have hpow : (M : ℚ) * 10 ^ q = (1 : ℕ) * 2 ^ (-1074 : ℤ) := by
      rw [heq, Nat.cast_one, one_mul]
    unfold pow10QMin at hmin
    rcases hq with hq | hq
    · have := (le_of_scaled_eq odd_one hq hpow).1
      omega
    · have := Nat.le_of_dvd one_pos (five_pow_dvd_of_scaled_eq (by omega) hpow)
      have hfive : 5 ^ 56 ≤ 5 ^ q.toNat := Nat.pow_le_pow_right (by norm_num) (by omega)
      omega

end

end

end

end

theorem lt_productValue_iff (hpos : 0 < M) (q : ℤ) (row : CachedPower) :
    ((M : ℚ) * 10 ^ q < productValue M row ↔
        ratioNum q row.e < row.significand * ratioDen q row.e) ∧
      (productValue M row < M * 10 ^ q ↔
        row.significand * ratioDen q row.e < ratioNum q row.e) := by
  have hden : (0 : ℚ) < ratioDen q row.e := by exact_mod_cast ratioDen_pos q row.e
  have hscale : (0 : ℚ) < 2 ^ row.e := by positivity
  have hM : (0 : ℚ) < M := by exact_mod_cast hpos
  have hx : (M : ℚ) * 10 ^ q = M * (ratioNum q row.e / ratioDen q row.e) * 2 ^ row.e := by
    rw [ten_zpow_eq q row.e, mul_assoc]
  rw [hx, productValue, mul_lt_mul_iff_left₀ hscale, mul_lt_mul_iff_left₀ hscale,
    mul_lt_mul_iff_right₀ hM, mul_lt_mul_iff_right₀ hM, div_lt_iff₀ hden, lt_div_iff₀ hden]
  exact ⟨by exact_mod_cast Iff.rfl, by exact_mod_cast Iff.rfl⟩

theorem productValue_eq_of_midpoint (hmin : pow10QMin ≤ q) (hmax : q ≤ pow10QMax)
    (hw : 2 ^ 63 ≤ M * 2 ^ lz) (hw' : M * 2 ^ lz < 2 ^ 64)
    (h : productValue M (pow10Row q) = halfway binary64 b) :
    productValue M (pow10Row q) = M * 10 ^ q := by
  have hrow := rowSound_pow10Row hmin hmax
  by_cases hq : q < 0 ∨ 55 < q
  · obtain ⟨hup, hdown⟩ := hrow.not_between hq hw hw'
      (show 2 * significand b + 1 < 2 ^ 54 by have := significand_lt b; omega) (exponent b - 1)
    rw [← halfway_binary64, ← h] at hup hdown
    exact le_antisymm (not_lt.mp fun hlt => hup ⟨hlt, le_rfl⟩)
      (not_lt.mp fun hlt => hdown ⟨le_rfl, hlt⟩)
  · exact hrow.productValue_eq (by omega) (by omega)

theorem roundsCorrectly_of_ge (h : (2 : ℚ) ^ (-1074 : ℤ) ≤ M * 10 ^ q)
    (hq : ¬ ((q = -1 ∨ q = -2 ∨ q = -4) ∨ q = -3)) : RoundsCorrectly M q :=
  ⟨fun hsmall => absurd h (not_le.mpr hsmall.2), fun hup => absurd (.inl hup) hq,
    fun hdown => absurd (.inr hdown) hq⟩

theorem two_zpow_le_scaled (hpos : 0 < M) (hq : -4 ≤ q) : (2 : ℚ) ^ (-1074 : ℤ) ≤ M * 10 ^ q := by
  calc (2 : ℚ) ^ (-1074 : ℤ) ≤ 2 ^ (-16 : ℤ) := zpow_le_zpow_right₀ one_le_two (by norm_num)
    _ ≤ 1 * 10 ^ (-4 : ℤ) := by norm_num
    _ ≤ M * 10 ^ q := by
      refine mul_le_mul ?_ ?_ (by positivity) (by positivity)
      · exact_mod_cast hpos
      · exact zpow_le_zpow_right₀ (by norm_num) hq

theorem isNearest_of_lt_min (hM : M < 2 ^ 64) (hq : q < pow10QMin) :
    IsNearest binary64 infinityBits ((M : ℚ) * 10 ^ q) 0 ∧ RoundsCorrectly M q := by
  have hsmall : (M : ℚ) * 10 ^ q ≤ 2 ^ (-1075 : ℤ) := by
    unfold pow10QMin at hq
    calc (M : ℚ) * 10 ^ q ≤ 2 ^ 64 * 10 ^ (-343 : ℤ) := by
          refine mul_le_mul ?_ ?_ (by positivity) (by positivity)
          · exact_mod_cast hM.le
          · exact zpow_le_zpow_right₀ (by norm_num) (by omega)
      _ ≤ 2 ^ (-1075 : ℤ) := by
          rw [zpow_neg, zpow_neg, ← div_eq_mul_inv, inv_eq_one_div,
            div_le_div_iff₀ (by positivity) (by positivity), one_mul]
          exact_mod_cast (show 2 ^ 64 * 2 ^ 1075 ≤ 10 ^ 343 by decide +kernel)
  unfold pow10QMin at hq
  exact ⟨isNearest_zero_iff.mpr hsmall, fun h => absurd h.1 (not_lt.mpr hsmall),
    fun h => by omega, fun h => by omega⟩

theorem isNearest_of_max_lt (hpos : 0 < M) (hq : pow10QMax < q) :
    IsNearest binary64 infinityBits ((M : ℚ) * 10 ^ q) infinityBits ∧ RoundsCorrectly M q := by
  unfold pow10QMax at hq
  refine ⟨isNearest_top binary64_strictMono fun a ha => ?_,
    roundsCorrectly_of_ge (two_zpow_le_scaled hpos (by omega)) (by omega)⟩
  calc halfway binary64 a < binary64 (a + 1) := halfway_lt binary64_strictMono a
    _ = 2 ^ (1024 : ℤ) := by rw [ha, binary64_infinityBits]
    _ ≤ 1 * 10 ^ (309 : ℤ) := by
      rw [one_mul]
      exact_mod_cast (show 2 ^ 1024 ≤ 10 ^ 309 by decide +kernel)
    _ ≤ M * 10 ^ q := by
      refine mul_le_mul ?_ ?_ (by positivity) (by positivity)
      · exact_mod_cast hpos
      · exact zpow_le_zpow_right₀ (by norm_num) (by omega)

theorem isNearest_tie_iff (hpos : 0 < M) (hmin : pow10QMin ≤ q) (hmax : q ≤ pow10QMax)
    (hq : q < 0 ∨ 55 < q) (hw : 2 ^ 63 ≤ M * 2 ^ lz) (hw' : M * 2 ^ lz < 2 ^ 64) {r : ℕ}
    (hb : b < infinityBits) (h : (M : ℚ) * 10 ^ q = halfway binary64 b) (hM : M < 2 ^ 64)
    (hr : IsNearest binary64 infinityBits (productValue M (pow10Row q)) r) :
    IsNearest binary64 infinityBits ((M : ℚ) * 10 ^ q) r ↔ RoundsCorrectly M q := by
  obtain ⟨hup, hdown⟩ := isNearest_productValue_of_midpoint hmin hmax hq hw hw' hb h
  obtain ⟨heven, hodd⟩ := isNearest_halfway_iff binary64_strictMono hb
  obtain ⟨habove, hbelow⟩ := lt_productValue_iff hpos q (pow10Row q)
  have hunique : ∀ c, (M : ℚ) * 10 ^ q = halfway binary64 c → c = b :=
    fun c hc => halfway_injective binary64_strictMono (hc.symm.trans h)
  have hlarge : (2 : ℚ) ^ (-1074 : ℤ) ≤ M * 10 ^ q := by
    have := exponent_of_midpoint hpos hM hmin hq h
    exact two_zpow_le_scaled hpos (by omega)
  rcases exponent_of_midpoint hpos hM hmin hq h with hthree | hthree
  · rw [h] at habove
    obtain rfl := hr.unique binary64_strictMono (hup (habove.mpr (ratio_lt_significand hthree)))
    rw [h, hodd]
    constructor
    · intro hb'
      refine ⟨fun hsmall => absurd hlarge (not_le.mpr hsmall.2), fun _ c _ hc => ?_, by omega⟩
      rwa [hunique c hc]
    · exact fun hcorrect => hcorrect.tie_up hthree b hb h
  · subst hthree
    rw [h] at hbelow
    obtain rfl := hr.unique binary64_strictMono (hdown (hbelow.mpr significand_lt_ratio))
    rw [h, heven]
    constructor
    · intro hb'
      refine ⟨fun hsmall => absurd hlarge (not_le.mpr hsmall.2), by omega, fun _ c _ hc => ?_⟩
      rwa [hunique c hc]
    · exact fun hcorrect => hcorrect.tie_down rfl r hb h

/-- The function returns the pattern of the nearest number, ties to even, with gradual
underflow and overflow, on exactly the inputs of `RoundsCorrectly`. -/
theorem scaleByPow10_isNearest_iff (hpos : 0 < M) (hM : M < 2 ^ 64) :
    IsNearest binary64 infinityBits ((M : ℚ) * 10 ^ q) (scaleByPow10 true M q) ↔
      RoundsCorrectly M q := by
  by_cases hmin : q < pow10QMin
  · obtain ⟨hnear, hcorrect⟩ := isNearest_of_lt_min hM hmin
    rw [scaleByPow10, if_neg hpos.ne', if_pos hmin]
    exact iff_of_true hnear hcorrect
  by_cases hmax : pow10QMax < q
  · obtain ⟨hnear, hcorrect⟩ := isNearest_of_max_lt hpos hmax
    rw [scaleByPow10, if_neg hpos.ne', if_neg hmin, if_pos hmax]
    exact iff_of_true hnear hcorrect
  have hmin := not_lt.mp hmin
  have hmax := not_lt.mp hmax
  obtain ⟨⟨lz, hw, hw'⟩, hdrop, hround⟩ := scaleByPow10_spec hpos hM hmin hmax
  have hround := fun hlarge => hround hlarge fun b =>
    productValue_eq_of_midpoint hmin hmax hw hw'
  by_cases hq : q < 0 ∨ 55 < q
  swap
  · -- an exact entry
    have heq := (rowSound_pow10Row hmin hmax).productValue_eq (M := M) (by omega) (by omega)
    have hlarge := two_zpow_le_scaled hpos (show -4 ≤ q by omega)
    rw [heq] at hround
    exact iff_of_true (hround hlarge) (roundsCorrectly_of_ge hlarge (by omega))
  have hleast := lt_least_iff hmin hmax hq hw hw'
  by_cases htie : ∃ b < infinityBits, (M : ℚ) * 10 ^ q = halfway binary64 b
  · obtain ⟨b, hb, h⟩ := htie
    have hlarge : (2 : ℚ) ^ (-1074 : ℤ) ≤ M * 10 ^ q := by
      have := exponent_of_midpoint hpos hM hmin hq h
      exact two_zpow_le_scaled hpos (by omega)
    exact isNearest_tie_iff hpos hmin hmax hq hw hw' hb h hM
      (hround (not_lt.mp (mt hleast.mpr (not_lt.mpr hlarge))))
  have htie : ∀ b < infinityBits, (M : ℚ) * 10 ^ q ≠ halfway binary64 b :=
    fun b hb h => htie ⟨b, hb, h⟩
  have hties : ¬ ((2 : ℚ) ^ (-1075 : ℤ) < M * 10 ^ q ∧ (M : ℚ) * 10 ^ q < 2 ^ (-1074 : ℤ)) →
      RoundsCorrectly M q :=
    fun h => ⟨h, fun _ b hb heq => absurd heq (htie b hb), fun _ b hb heq => absurd heq (htie b hb)⟩
  by_cases hsmall : (M : ℚ) * 10 ^ q < 2 ^ (-1074 : ℤ)
  · rw [hdrop (hleast.mp hsmall), isNearest_zero_iff]
    exact ⟨fun h => hties fun hzone => absurd h (not_le.mpr hzone.1),
      fun h => not_lt.mp fun hlt => h.not_dropped ⟨hlt, hsmall⟩⟩
  · rw [isNearest_iff_productValue hmin hmax hq hw hw' htie]
    exact iff_of_true (hround (not_lt.mp (mt hleast.mpr hsmall)))
      (hties fun hzone => hsmall hzone.2)

/-- A power of ten halfway in the last place is within the condition. -/
theorem scaleByPow10_isNearest_ten :
    IsNearest binary64 infinityBits (((1 : ℕ) : ℚ) * 10 ^ (23 : ℤ)) (scaleByPow10 true 1 23) :=
  (scaleByPow10_isNearest_iff (by decide) (by decide)).mpr
    (roundsCorrectly_of_ge (two_zpow_le_scaled (by decide) (by decide)) (by decide))

/-- `4e-324` is nearer to the least subnormal number than to zero, and becomes zero. -/
theorem scaleByPow10_drops :
    ¬ IsNearest binary64 infinityBits (((4 : ℕ) : ℚ) * 10 ^ (-324 : ℤ))
      (scaleByPow10 true 4 (-324)) := by
  have hzero : scaleByPow10 true 4 (-324) = 0 := by decide
  rw [hzero, isNearest_zero_iff, not_le, zpow_neg, zpow_neg, ← div_eq_mul_inv, inv_eq_one_div,
    div_lt_div_iff₀ (by positivity) (by positivity), one_mul]
  exact_mod_cast (show 10 ^ 324 < 4 * 2 ^ 1075 by decide +kernel)

end Correctness

end Number
end Th8
