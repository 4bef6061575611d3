import Mathlib.Algebra.Order.Field.Basic
import Mathlib.Algebra.Ring.Parity
import Mathlib.Order.Monotone.Basic
import Mathlib.Tactic.Linarith
import Mathlib.Tactic.LinearCombination
import Mathlib.Tactic.Push
import Mathlib.Tactic.Ring

/-!
# Fractions and rounding
-/

namespace Support

/-!
## Neighbouring fractions

Two fractions are neighbours when their cross products differ by one.  Whatever lies
strictly between them has a denominator at least as large as the sum of theirs.  Walking
down the tree of such pairs towards a number finds the neighbours around it, so a number
that is hard to approximate can be shown to be so by one computation.
-/

structure Neighbours where
  lowNum : ℕ
  lowDen : ℕ
  highNum : ℕ
  highDen : ℕ
  adjacent : highNum * lowDen = lowNum * highDen + 1

namespace Neighbours

theorem den_le_of_between (p : Neighbours) {n d : ℕ} (hlow : p.lowNum * d < n * p.lowDen)
    (hhigh : n * p.highDen < p.highNum * d) :
    p.lowDen + p.highDen ≤ d := by
  have hadj := p.adjacent
  have h₁ : p.lowNum * d + 1 ≤ n * p.lowDen := hlow
  have h₂ : n * p.highDen + 1 ≤ p.highNum * d := hhigh
  zify at hadj h₁ h₂ ⊢
  -- the denominator is a combination of the two gaps
  have hsplit : (d : ℤ) = p.lowDen * (p.highNum * d - n * p.highDen) +
      p.highDen * (n * p.lowDen - p.lowNum * d) := by
    linear_combination -(d : ℤ) * hadj
  have h₃ := mul_le_mul_of_nonneg_left (show (1 : ℤ) ≤ p.highNum * d - n * p.highDen by linarith)
    (Int.natCast_nonneg p.lowDen)
  have h₄ := mul_le_mul_of_nonneg_left (show (1 : ℤ) ≤ n * p.lowDen - p.lowNum * d by linarith)
    (Int.natCast_nonneg p.highDen)
  linarith

/-- The lower fraction, moved `k` steps towards the upper one. -/
def raise (p : Neighbours) (k : ℕ) : Neighbours where
  lowNum := p.lowNum + k * p.highNum
  lowDen := p.lowDen + k * p.highDen
  highNum := p.highNum
  highDen := p.highDen
  adjacent := by
    have := p.adjacent
    linarith

/-- The upper fraction, moved `k` steps towards the lower one. -/
def lower (p : Neighbours) (k : ℕ) : Neighbours where
  lowNum := p.lowNum
  lowDen := p.lowDen
  highNum := p.highNum + k * p.lowNum
  highDen := p.highDen + k * p.lowDen
  adjacent := by
    have := p.adjacent
    linarith

/-- The neighbours `0/1` and `1/1`. -/
def unit : Neighbours := ⟨0, 1, 1, 1, rfl⟩

/-- The neighbours around `n / d` that the descent from `p` reaches in `fuel` rounds; it stops
when nothing between them has a denominator below `limit`. -/
def around (limit n d : ℕ) : ℕ → Neighbours → Neighbours
  | 0, p => p
  | fuel + 1, p =>
    if limit ≤ p.lowDen + p.highDen then p else
    let up := p.raise (min ((n * p.lowDen - p.lowNum * d) / (p.highNum * d - n * p.highDen))
      ((limit - 1 - p.lowDen) / p.highDen))
    let down := up.lower (min ((up.highNum * d - n * up.highDen) / (n * up.lowDen - up.lowNum * d))
      ((limit - 1 - up.highDen) / up.lowDen))
    around limit n d fuel down

end Neighbours

/-!
## Rounding to a grid

A grid is an increasing sequence of points up to a last one.  A number rounds to the
nearest point, and to the one with the even index when two are nearest.  Which point
that is follows from comparing the number with the midpoints of the grid, so two numbers
with no midpoint between them round alike.
-/

section Rounding

open Nat

variable {α : Type} [Field α] [LinearOrder α] [IsStrictOrderedRing α]

/-- The point with index `b` is nearest to `x` among those up to `top`, and even if it is
not the only one. -/
structure IsNearest (grid : ℕ → α) (top : ℕ) (x : α) (b : ℕ) : Prop where
  le_top : b ≤ top
  nearest : ∀ c ≤ top, |x - grid b| ≤ |x - grid c|
  even : ∀ c ≤ top, c ≠ b → |x - grid b| = |x - grid c| → Even b

/-- The midpoint between the points with index `b` and `b + 1`. -/
def halfway (grid : ℕ → α) (b : ℕ) : α := (grid b + grid (b + 1)) / 2

variable {grid : ℕ → α} {top : ℕ} {x y : α} {b : ℕ}

section Distances

variable {p : α}

theorem abs_sub_eq_of_le (h : p ≤ x) : |x - p| = x - p :=
  abs_of_nonneg (sub_nonneg.mpr h)

theorem abs_sub_eq_of_ge (h : x ≤ p) : |x - p| = p - x := by
  rw [abs_sub_comm]
  exact abs_of_nonneg (sub_nonneg.mpr h)

variable {q : α}

theorem abs_sub_lt_abs_sub_iff (hpq : p < q) :
    |x - p| < |x - q| ↔ x < (p + q) / 2 := by
  rw [lt_div_iff₀ two_pos]
  rcases le_total x p with hxp | hpx
  · rw [abs_sub_eq_of_ge hxp, abs_sub_eq_of_ge (hxp.trans hpq.le)]
    constructor <;> intro <;> linarith
  · rw [abs_sub_eq_of_le hpx]
    rcases le_total x q with hxq | hqx
    · rw [abs_sub_eq_of_ge hxq]
      constructor <;> intro <;> linarith
    · rw [abs_sub_eq_of_le hqx]
      constructor <;> intro <;> linarith

theorem abs_sub_le_abs_sub_iff (hpq : p < q) :
    |x - q| ≤ |x - p| ↔ (p + q) / 2 ≤ x := by
  rw [← not_lt, ← not_lt, abs_sub_lt_abs_sub_iff hpq]

theorem abs_sub_eq_abs_sub_iff (hpq : p < q) :
    |x - p| = |x - q| ↔ x = (p + q) / 2 := by
  constructor
  · intro h
    refine le_antisymm (not_lt.mp fun hlt => ?_) ((abs_sub_le_abs_sub_iff hpq).mp h.ge)
    rcases le_total x q with hxq | hqx
    · rw [abs_sub_eq_of_ge hxq, abs_sub_eq_of_le (by linarith)] at h
      linarith
    · rw [abs_sub_eq_of_le hqx, abs_sub_eq_of_le (by linarith)] at h
      linarith
  · rintro rfl
    rw [abs_sub_eq_of_le (by linarith), abs_sub_eq_of_ge (by linarith)]
    linarith

end Distances

section Grid

variable (hgrid : StrictMono grid)

include hgrid

theorem halfway_lt_halfway {a c : ℕ} (h : a < c) : halfway grid a < halfway grid c := by
  have h₁ := hgrid h
  have h₂ := hgrid (succ_lt_succ h)
  unfold halfway
  linarith

theorem lt_halfway (b : ℕ) : grid b < halfway grid b := by
  have := hgrid (lt_succ_self b)
  unfold halfway
  linarith

theorem halfway_lt (b : ℕ) : halfway grid b < grid (b + 1) := by
  have := hgrid (lt_succ_self b)
  unfold halfway
  linarith

/-- Where a number has to lie to round to the point with index `b`. -/
theorem isNearest_iff :
    IsNearest grid top x b ↔ b ≤ top ∧
      (∀ a, a + 1 = b → halfway grid a < x ∨ (halfway grid a = x ∧ Even b)) ∧
      (b < top → x < halfway grid b ∨ (x = halfway grid b ∧ Even b)) := by
  constructor
  · intro h
    refine ⟨h.le_top, ?_, ?_⟩
    · rintro a rfl
      have hlt := hgrid (lt_succ_self a)
      have hle := (abs_sub_le_abs_sub_iff hlt).mp (h.nearest a ((le_succ a).trans h.le_top))
      rcases hle.lt_or_eq with hlt' | heq
      · exact .inl hlt'
      · exact .inr ⟨heq, h.even a ((le_succ a).trans h.le_top) (by omega)
          ((abs_sub_eq_abs_sub_iff hlt).mpr heq.symm).symm⟩
    · intro hb
      have hlt := hgrid (lt_succ_self b)
      rcases (h.nearest (b + 1) hb).lt_or_eq with hlt' | heq
      · exact .inl ((abs_sub_lt_abs_sub_iff hlt).mp hlt')
      · exact .inr ⟨(abs_sub_eq_abs_sub_iff hlt).mp heq, h.even (b + 1) hb (by omega) heq⟩
  · rintro ⟨htop, hlow, hhigh⟩
    -- a point further away is compared through the midpoint next to `b`
    have hbelow : ∀ c, c < b → (grid c + grid b) / 2 < x ∨
        ((grid c + grid b) / 2 = x ∧ Even b) := by
      intro c hc
      obtain ⟨a, rfl⟩ := Nat.exists_eq_add_of_lt (Nat.zero_lt_of_lt hc)
      rw [zero_add] at hc hlow ⊢
      have hca : grid c ≤ grid a := hgrid.monotone (Nat.lt_succ_iff.mp hc)
      rcases hca.lt_or_eq with hlt | heq
      · refine .inl (lt_of_lt_of_le (b := halfway grid a) ?_ ?_)
        · unfold halfway
          linarith
        · rcases hlow a rfl with h | ⟨h, -⟩
          · exact h.le
          · exact h.le
      · rw [heq]
        exact hlow a rfl
    have habove : ∀ c, b < c → c ≤ top → x < (grid b + grid c) / 2 ∨
        (x = (grid b + grid c) / 2 ∧ Even b) := by
      intro c hc hctop
      have hbc : grid (b + 1) ≤ grid c := hgrid.monotone hc
      have hx := hhigh (hc.trans_le hctop)
      rcases hbc.lt_or_eq with hlt | heq
      · refine .inl (lt_of_le_of_lt (b := halfway grid b) ?_ ?_)
        · rcases hx with h | ⟨h, -⟩
          · exact h.le
          · exact h.le
        · unfold halfway
          linarith
      · rw [← heq]
        exact hx
    refine ⟨htop, fun c hc => ?_, fun c hc hne heq => ?_⟩
    · rcases lt_trichotomy c b with hlt | rfl | hlt
      · rw [abs_sub_le_abs_sub_iff (hgrid hlt)]
        rcases hbelow c hlt with h | ⟨h, -⟩
        · exact h.le
        · exact h.le
      · exact le_rfl
      · refine not_lt.mp fun hlt' => ?_
        have hmid := (abs_sub_le_abs_sub_iff (hgrid hlt)).mp hlt'.le
        rcases habove c hlt hc with h | ⟨h, -⟩
        · exact absurd h (not_lt.mpr hmid)
        · exact hlt'.ne' ((abs_sub_eq_abs_sub_iff (hgrid hlt)).mpr h)
    · rcases lt_or_gt_of_ne hne with hlt | hlt
      · rcases hbelow c hlt with h | ⟨-, h⟩
        · exact absurd ((abs_sub_eq_abs_sub_iff (hgrid hlt)).mp heq.symm) h.ne'
        · exact h
      · rcases habove c hlt hc with h | ⟨-, h⟩
        · exact absurd ((abs_sub_eq_abs_sub_iff (hgrid hlt)).mp heq) h.ne
        · exact h

theorem IsNearest.unique {c : ℕ} (hb : IsNearest grid top x b)
    (hc : IsNearest grid top x c) : b = c := by
  wlog hbc : b < c generalizing b c with hsymm
  · rcases lt_or_eq_of_le (not_lt.mp hbc) with hlt | heq
    · exact (hsymm hc hb hlt).symm
    · exact heq.symm
  exfalso
  obtain ⟨-, -, hhigh⟩ := (isNearest_iff hgrid).mp hb
  obtain ⟨htop, hlow, -⟩ := (isNearest_iff hgrid).mp hc
  obtain ⟨d, rfl⟩ := Nat.exists_eq_add_of_lt hbc
  have hmono : halfway grid b ≤ halfway grid (b + d) := by
    rcases Nat.eq_zero_or_pos d with rfl | hd
    · exact le_rfl
    · exact (halfway_lt_halfway hgrid (by omega)).le
  rcases hhigh (hbc.trans_le htop) with hx | ⟨hx, heven⟩
  · rcases hlow (b + d) rfl with hx' | ⟨hx', -⟩
    · linarith
    · linarith
  · rcases hlow (b + d) rfl with hx' | ⟨hx', heven'⟩
    · linarith
    · -- both are even, so they are not neighbours
      have hd : d ≠ 0 := by
        rintro rfl
        exact (even_add_one.mp heven') heven
      exact absurd (halfway_lt_halfway hgrid (show b < b + d by omega))
        (by rw [← hx, hx']; exact lt_irrefl _)

theorem isNearest_of_bracket (hb : b < top) (hlow : grid b ≤ y) (hhigh : y < grid (b + 1))
    (up : Prop) [Decidable up] (hup : up ↔ halfway grid b < y ∨ (halfway grid b = y ∧ ¬ Even b)) :
    IsNearest grid top y (if up then b + 1 else b) := by
  rw [isNearest_iff hgrid]
  split_ifs with h
  · refine ⟨hb, ?_, fun hb' => .inl ?_⟩
    · intro a ha
      obtain rfl : a = b := by omega
      rcases hup.mp h with h | ⟨h, hodd⟩
      · exact .inl h
      · exact .inr ⟨h, even_add_one.mpr hodd⟩
    · exact hhigh.trans (lt_halfway hgrid (b + 1))
  · refine ⟨hb.le, ?_, fun _ => ?_⟩
    · rintro a rfl
      exact .inl ((halfway_lt hgrid a).trans_le hlow)
    · rw [hup, not_or, not_and, not_not] at h
      rcases (not_lt.mp h.1).lt_or_eq with hlt | heq
      · exact .inl hlt
      · exact .inr ⟨heq, h.2 heq.symm⟩

theorem isNearest_top (h : ∀ a, a + 1 = top → halfway grid a < y) : IsNearest grid top y top := by
  rw [isNearest_iff hgrid]
  exact ⟨le_rfl, fun a ha => .inl (h a ha), fun hlt => absurd hlt (lt_irrefl _)⟩

theorem isNearest_congr
    (h : ∀ a, a < top → (halfway grid a < x ↔ halfway grid a < y) ∧
      (x < halfway grid a ↔ y < halfway grid a)) :
    IsNearest grid top x b ↔ IsNearest grid top y b := by
  have heq : ∀ a, a < top → (halfway grid a = x ↔ halfway grid a = y) := by
    intro a ha
    obtain ⟨hlow, hhigh⟩ := h a ha
    constructor
    · rintro rfl
      exact le_antisymm (not_lt.mp (mt hhigh.mpr (lt_irrefl _)))
        (not_lt.mp (mt hlow.mpr (lt_irrefl _)))
    · rintro rfl
      exact le_antisymm (not_lt.mp (mt hhigh.mp (lt_irrefl _)))
        (not_lt.mp (mt hlow.mp (lt_irrefl _)))
  rw [isNearest_iff hgrid, isNearest_iff hgrid]
  refine and_congr_right fun htop => and_congr ?_ ?_
  · refine forall_congr' fun a => forall_congr' fun ha => ?_
    rw [(h a (by omega)).1, heq a (by omega)]
  · refine forall_congr' fun hb => ?_
    rw [(h b hb).2, eq_comm, heq b hb, eq_comm]

theorem halfway_injective : Function.Injective (halfway grid) := by
  intro a b h
  rcases lt_trichotomy a b with hlt | heq | hlt
  · exact absurd h (halfway_lt_halfway hgrid hlt).ne
  · exact heq
  · exact absurd h (halfway_lt_halfway hgrid hlt).ne'

theorem isNearest_halfway_iff (hb : b < top) :
    (IsNearest grid top (halfway grid b) b ↔ Even b) ∧
      (IsNearest grid top (halfway grid b) (b + 1) ↔ ¬ Even b) := by
  rw [isNearest_iff hgrid, isNearest_iff hgrid, ← even_add_one]
  constructor
  · constructor
    · rintro ⟨-, -, hhigh⟩
      exact (hhigh hb).elim (fun h => absurd h (lt_irrefl _)) And.right
    · intro heven
      refine ⟨hb.le, fun a ha => .inl (halfway_lt_halfway hgrid (by omega)), fun _ => ?_⟩
      exact .inr ⟨rfl, heven⟩
  · constructor
    · rintro ⟨-, hlow, -⟩
      exact (hlow b rfl).elim (fun h => absurd h (lt_irrefl _)) And.right
    · intro heven
      refine ⟨hb, fun a ha => ?_, fun _ => .inl (halfway_lt_halfway hgrid (by omega))⟩
      obtain rfl : a = b := by omega
      exact .inr ⟨rfl, heven⟩

end Grid

end Rounding

end Support
