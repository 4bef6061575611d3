import Mathlib.Algebra.Order.Ring.Int
import Mathlib.Data.Nat.Digits.Lemmas
import Mathlib.Data.Nat.Size
import Mathlib.Data.Int.ModEq
import Mathlib.Tactic.Linarith
import Mathlib.Tactic.Ring

/-!
# Two's complement

The integers that a number of bits holds, the least number of bits for an integer, the
pattern of an integer, and numbers as bytes with the most significant byte first.
-/

namespace Support

open List Nat

/-! ## Ranges -/

/-- The interval from `-2 ^ (b - 1)` to `2 ^ (b - 1) - 1`, doubled so that no exponent is
negative.  It has no integer when there is no bit. -/
def TwosRange (b : ℕ) (v : ℤ) : Prop := -2 ^ b ≤ 2 * v ∧ 2 * v + 2 ≤ 2 ^ b

instance (b : ℕ) (v : ℤ) : Decidable (TwosRange b v) :=
  inferInstanceAs (Decidable (_ ∧ _))

theorem not_twosRange_zero (v : ℤ) : ¬ TwosRange 0 v := by
  unfold TwosRange
  omega

variable {b : ℕ} {v : ℤ}

theorem twosRange_succ : TwosRange (b + 1) v ↔ -2 ^ b ≤ v ∧ v < 2 ^ b := by
  rw [TwosRange, pow_succ]
  omega

def twosBits (v : ℤ) : ℕ :=
  if v < 0 then Nat.size (-v - 1).toNat + 1 else Nat.size v.toNat + 1

theorem twosBits_pos (v : ℤ) : 0 < twosBits v := by
  rw [twosBits]
  split_ifs <;> exact succ_pos _

theorem twosRange_iff_twosBits_le : TwosRange b v ↔ twosBits v ≤ b := by
  cases b with
  | zero => exact iff_of_false (not_twosRange_zero v) (not_le.mpr (twosBits_pos v))
  | succ b =>
    rw [twosRange_succ, twosBits]
    have hpow : ((2 ^ b : ℕ) : ℤ) = 2 ^ b := by push_cast; rfl
    split_ifs with hv
    · rw [add_le_add_iff_right, Nat.size_le, ← hpow]
      omega
    · rw [add_le_add_iff_right, Nat.size_le, ← hpow]
      omega

def twosBytes (v : ℤ) : ℕ := (twosBits v + 7) / 8

theorem twosRange_iff_twosBytes_le {n : ℕ} : TwosRange (8 * n) v ↔ twosBytes v ≤ n := by
  rw [twosRange_iff_twosBits_le, twosBytes]
  omega

theorem isLeast_twosBytes (v : ℤ) : IsLeast {n | TwosRange (8 * n) v} (twosBytes v) :=
  ⟨twosRange_iff_twosBytes_le.mpr le_rfl, fun _ hn => twosRange_iff_twosBytes_le.mp hn⟩

theorem twosBits_le_of_natAbs_lt {k : ℕ} (h : v.natAbs < 2 ^ k) : twosBits v ≤ k + 1 := by
  rw [← twosRange_iff_twosBits_le, twosRange_succ]
  have hpow : ((2 ^ k : ℕ) : ℤ) = 2 ^ k := by push_cast; rfl
  rw [← hpow]
  omega

theorem twosBits_of_neg (hv : v < 0) :
    twosBits v =
      if 2 ^ (Nat.size v.natAbs - 1) = v.natAbs then Nat.size v.natAbs
      else Nat.size v.natAbs + 1 := by
  have hpos : 0 < v.natAbs := Int.natAbs_pos.mpr hv.ne
  obtain ⟨s, hs⟩ := exists_eq_succ_of_ne_zero (size_pos.mpr hpos).ne'
  have hlow : 2 ^ s ≤ v.natAbs := lt_size.mp (by omega)
  have hhigh : v.natAbs < 2 ^ (s + 1) := Nat.size_le.mp (by omega)
  have hpred : (-v - 1).toNat = v.natAbs - 1 := by omega
  rw [twosBits, if_pos hv, hpred, hs, Nat.succ_eq_add_one, Nat.add_sub_cancel]
  split_ifs with hpow
  · rw [← hpow, add_right_cancel_iff]
    apply le_antisymm
    · exact Nat.size_le.mpr (Nat.sub_lt (Nat.two_pow_pos s) Nat.one_pos)
    · cases s with
      | zero => exact zero_le _
      | succ t =>
        refine lt_size.mpr ?_
        have := Nat.one_le_two_pow (n := t)
        rw [pow_succ]
        omega
  · rw [add_right_cancel_iff]
    apply le_antisymm
    · exact Nat.size_le.mpr (by omega)
    · exact lt_size.mpr (by omega)

theorem twosBits_of_nonneg (hv : 0 ≤ v) : twosBits v = Nat.size v.natAbs + 1 := by
  rw [twosBits, if_neg (not_lt.mpr hv)]
  congr 2
  omega

def twosPattern (b : ℕ) (v : ℤ) : ℕ := (if v < 0 then v + 2 ^ b else v).toNat

def twosValue (b u : ℕ) : ℤ := if 2 ^ b ≤ 2 * u then u - 2 ^ b else u

theorem twosPattern_lt (h : TwosRange b v) : twosPattern b v < 2 ^ b := by
  have hpow : ((2 ^ b : ℕ) : ℤ) = 2 ^ b := by push_cast; rfl
  unfold TwosRange at h
  unfold twosPattern
  rw [← hpow] at h ⊢
  split_ifs <;> omega

theorem twosValue_twosPattern (h : TwosRange b v) : twosValue b (twosPattern b v) = v := by
  have hpow : ((2 ^ b : ℕ) : ℤ) = 2 ^ b := by push_cast; rfl
  unfold TwosRange at h
  unfold twosValue twosPattern
  rw [← hpow] at h ⊢
  split_ifs <;> omega

def ofBytes (z : List UInt8) : ℕ := Nat.ofDigits 256 (z.reverse.map UInt8.toNat)

def toBytes (u : ℕ) : List UInt8 := ((Nat.digits 256 u).map UInt8.ofNat).reverse

theorem map_toNat_ofNat_digits (u : ℕ) :
    ((Nat.digits 256 u).map UInt8.ofNat).map UInt8.toNat = Nat.digits 256 u := by
  rw [map_map]
  refine (map_congr_left fun d hd => ?_).trans (map_id _)
  have hlt : d < 256 := digits_lt_base (by norm_num) hd
  simpa using hlt

theorem ofBytes_toBytes (u : ℕ) : ofBytes (toBytes u) = u := by
  rw [ofBytes, toBytes, reverse_reverse, map_toNat_ofNat_digits, ofDigits_digits]

theorem ofBytes_cons (c : UInt8) (z : List UInt8) :
    ofBytes (c :: z) = c.toNat * 256 ^ z.length + ofBytes z := by
  simp only [ofBytes, reverse_cons, map_append, ofDigits_append]
  simp
  ring

theorem ofBytes_replicate_append (k : ℕ) (z : List UInt8) :
    ofBytes (List.replicate k 0 ++ z) = ofBytes z := by
  induction k with
  | zero => rfl
  | succ k ih =>
    rw [replicate_succ, cons_append, ofBytes_cons, ih]
    simp

theorem ofBytes_lt (z : List UInt8) : ofBytes z < 256 ^ z.length := by
  have h := ofDigits_lt_base_pow_length (b := 256) (l := z.reverse.map UInt8.toNat)
    (by norm_num) (by
      intro x hx
      obtain ⟨c, -, rfl⟩ := mem_map.mp hx
      exact c.toNat_lt)
  simpa [ofBytes] using h

theorem signBit_iff (c : UInt8) (z : List UInt8) :
    128 ≤ c.toNat ↔ 2 ^ (8 * (c :: z).length) ≤ 2 * ofBytes (c :: z) := by
  have hlt := ofBytes_lt z
  have hpow : 2 ^ (8 * (c :: z).length) = 256 * 256 ^ z.length := by
    rw [pow_mul, length_cons, pow_succ]
    ring
  rw [hpow, ofBytes_cons]
  constructor
  · intro h
    have := mul_le_mul_right (256 ^ z.length) h
    linarith
  · intro h
    by_contra hc
    have := mul_le_mul_right (256 ^ z.length) (show c.toNat ≤ 127 by omega)
    linarith

theorem length_toBytes_le {u n : ℕ} : (toBytes u).length ≤ n ↔ u < 2 ^ (8 * n) := by
  rw [toBytes, length_reverse, length_map, pow_mul]
  exact digits_length_le_iff (by norm_num) u

end Support
