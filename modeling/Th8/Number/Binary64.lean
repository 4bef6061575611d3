import Mathlib.Algebra.Order.Field.Power
import Mathlib.Data.Rat.Cast.Order
import Mathlib.Tactic.NormNum
import Mathlib.Tactic.Positivity
import Mathlib.Tactic.Ring
import Th8.Support.Rounding

/-!
# The nonnegative binary64 numbers

The numbers with the sign bit clear form a grid: bit patterns in increasing order denote
increasing numbers, each the one before it plus its unit in the last place.  The pattern
of infinity continues the grid with `2 ^ 1024`, so the overflow threshold is the midpoint
below it.
-/

namespace Th8
namespace Number

open Support

def infinityBits : ℕ := 0x7FF0000000000000

def significand (b : ℕ) : ℕ := if b < 2 ^ 52 then b else 2 ^ 52 + b % 2 ^ 52

def exponent (b : ℕ) : ℤ := if b < 2 ^ 52 then -1074 else (b / 2 ^ 52 : ℕ) - 1075

def binary64 (b : ℕ) : ℚ := significand b * 2 ^ exponent b

theorem significand_lt (b : ℕ) : significand b < 2 ^ 53 := by
  unfold significand
  split <;> omega

theorem even_significand_iff (b : ℕ) : Even (significand b) ↔ Even b := by
  rw [Nat.even_iff, Nat.even_iff]
  unfold significand
  split <;> omega

theorem le_significand {b : ℕ} (h : exponent b ≠ -1074) : 2 ^ 52 ≤ significand b := by
  unfold exponent at h
  unfold significand
  split
  · rename_i hsub
    exact absurd rfl (by rw [if_pos hsub] at h; exact h)
  · omega

theorem binary64_succ (b : ℕ) : binary64 (b + 1) = (significand b + 1) * 2 ^ exponent b := by
  unfold binary64
  by_cases hsub : b + 1 < 2 ^ 52
  · simp only [significand, exponent, if_pos hsub, if_pos (show b < 2 ^ 52 by omega)]
    push_cast
    ring
  by_cases hsub' : b < 2 ^ 52
  · -- the last subnormal number
    obtain rfl : b = 2 ^ 52 - 1 := by omega
    norm_num [significand, exponent]
  by_cases hcarry : b % 2 ^ 52 = 2 ^ 52 - 1
  · have hmod : (b + 1) % 2 ^ 52 = 0 := by omega
    have hdiv : (b + 1) / 2 ^ 52 = b / 2 ^ 52 + 1 := by omega
    simp only [significand, exponent, if_neg hsub, if_neg hsub', hmod, hdiv, hcarry]
    rw [show ((b / 2 ^ 52 + 1 : ℕ) : ℤ) - 1075 = ((b / 2 ^ 52 : ℕ) - 1075) + 1 by
        push_cast; ring,
      zpow_add_one₀ two_ne_zero]
    push_cast
    ring
  · have hmod : (b + 1) % 2 ^ 52 = b % 2 ^ 52 + 1 := by omega
    have hdiv : (b + 1) / 2 ^ 52 = b / 2 ^ 52 := by omega
    simp only [significand, exponent, if_neg hsub, if_neg hsub', hmod, hdiv]
    push_cast
    ring

theorem binary64_strictMono : StrictMono binary64 := by
  refine strictMono_nat_of_lt_succ fun b => ?_
  have hpow : (0 : ℚ) < 2 ^ exponent b := by positivity
  rw [binary64_succ]
  unfold binary64
  linarith

theorem halfway_binary64 (b : ℕ) :
    halfway binary64 b = (2 * significand b + 1 : ℕ) * 2 ^ (exponent b - 1) := by
  unfold halfway
  rw [binary64_succ, binary64, zpow_sub_one₀ two_ne_zero]
  push_cast
  ring

theorem significand_of_biased {e m : ℕ} (he : 0 < e) (hlow : 2 ^ 52 ≤ m) (hhigh : m < 2 ^ 53) :
    significand (e * 2 ^ 52 + (m - 2 ^ 52)) = m ∧
      exponent (e * 2 ^ 52 + (m - 2 ^ 52)) = e - 1075 := by
  have hnot : ¬ e * 2 ^ 52 + (m - 2 ^ 52) < 2 ^ 52 := by omega
  have hmod : (e * 2 ^ 52 + (m - 2 ^ 52)) % 2 ^ 52 = m - 2 ^ 52 := by omega
  have hdiv : (e * 2 ^ 52 + (m - 2 ^ 52)) / 2 ^ 52 = e := by omega
  simp only [significand, exponent, if_neg hnot, hmod, hdiv]
  exact ⟨by omega, trivial⟩

theorem halfway_zero : halfway binary64 0 = 2 ^ (-1075 : ℤ) := by
  rw [halfway_binary64]
  norm_num [significand, exponent]

theorem binary64_infinityBits : binary64 infinityBits = 2 ^ (1024 : ℤ) := by
  have h : infinityBits = 2047 * 2 ^ 52 + (2 ^ 52 - 2 ^ 52) := by decide
  obtain ⟨hsig, hexp⟩ := significand_of_biased (e := 2047) (by decide) (le_refl (2 ^ 52))
    (by decide)
  rw [binary64, h, hsig, hexp, show (1024 : ℤ) = 52 + 972 from rfl, zpow_add₀ two_ne_zero]
  norm_num

end Number
end Th8
