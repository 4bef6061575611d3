import Mathlib.Algebra.Ring.Int.Defs
import Mathlib.Algebra.Ring.Nat
import Th8.Core.Value

/-!
# Checked sizes and guarded allocation

The size arithmetic that refuses to wrap, and the guards that stand in front of the
platform allocator.  Whether a request that passes the guards is granted is left open:
it depends on the memory limit, the platform and the second chance after the cache has
been cleared.
-/

namespace Th8

/-- The largest `size_t`. -/
def sizeMax : ℕ := 2 ^ 64 - 1

def safeAddSize (a b : ℕ) : Option ℕ :=
  if sizeMax - b < a then none else some (a + b)

def safeMulSize (a b : ℕ) : Option ℕ :=
  if b ≠ 0 ∧ sizeMax / b < a then none else some (a * b)

def mxAlloc : ℕ := 256 * 1024 * 1024

/-- `Th8_SafeAlloc`: whether a block of `nByte` bytes is obtained. -/
def safeAlloc (granted : Bool) (nByte : ℕ) : Bool :=
  if nByte = 0 ∨ mxAlloc < nByte then false else granted

/-- `Th8_SafeAllocStr`: a block for `nLen` bytes and a terminator. -/
def safeAllocStr (granted : Bool) (nLen : ℕ) : Bool :=
  match safeAddSize nLen 1 with
  | none => false
  | some nByte => safeAlloc granted nByte

/-- `Th8_SafeAllocMul`: a block for `a` items of `b` bytes. -/
def safeAllocMul (granted : Bool) (a b : ℕ) : Bool :=
  match safeMulSize a b with
  | none => false
  | some nByte => safeAlloc granted nByte

/-- The largest `int`. -/
def cIntMax : ℤ := 2 ^ 31 - 1

/-- The value of an `int` after an increment or a decrement, which wraps where it
leaves the range. -/
def wrapInt (n : ℤ) : ℤ := Int.bmod n (2 ^ 32)

theorem wrapInt_of_fits {n : ℤ} (hlo : 0 ≤ n) (hhi : n ≤ cIntMax) : wrapInt n = n := by
  have hmax : cIntMax = 2147483647 := by decide
  apply Int.bmod_eq_of_le_mul_two
  · push_cast
    omega
  · push_cast
    omega

theorem wrapInt_succ (n : ℤ) : wrapInt (wrapInt n + 1) = wrapInt (n + 1) := by
  exact Int.bmod_add_bmod

theorem wrapInt_pred (n : ℤ) : wrapInt (wrapInt n - 1) = wrapInt (n - 1) := by
  exact Int.bmod_sub_bmod

theorem safeAddSize_eq_some {a b n : ℕ} :
    safeAddSize a b = some n ↔ a ≤ sizeMax - b ∧ n = a + b := by
  unfold safeAddSize
  by_cases h : sizeMax - b < a
  · have hle : ¬a ≤ sizeMax - b := by omega
    simp [h, hle]
  · simp only [h, if_false, Option.some.injEq]
    constructor
    · intro hn
      exact ⟨by omega, hn.symm⟩
    · intro hn
      exact hn.2.symm

theorem safeMulSize_eq_some {a b n : ℕ} (hb : 0 < b) :
    safeMulSize a b = some n ↔ a ≤ sizeMax / b ∧ n = a * b := by
  unfold safeMulSize
  by_cases h : sizeMax / b < a
  · have hb' : b ≠ 0 := by omega
    have hle : ¬a ≤ sizeMax / b := by omega
    simp [h, hb', hle]
  · have hno : ¬(b ≠ 0 ∧ sizeMax / b < a) := fun hc => h hc.2
    simp only [hno, if_false, Option.some.injEq]
    constructor
    · intro hn
      exact ⟨by omega, hn.symm⟩
    · intro hn
      exact hn.2.symm

theorem safeAllocStr_eq_true {granted : Bool} {nLen : ℕ} :
    safeAllocStr granted nLen = true ↔ granted = true ∧ nLen < mxAlloc := by
  unfold safeAllocStr safeAddSize safeAlloc sizeMax mxAlloc
  by_cases hbig : 2 ^ 64 - 1 - 1 < nLen
  · simp only [hbig, if_true]
    constructor
    · intro h
      exact absurd h (by decide)
    · rintro ⟨-, h⟩
      omega
  · simp only [hbig, if_false]
    by_cases hmax : nLen + 1 = 0 ∨ 256 * 1024 * 1024 < nLen + 1
    · simp only [hmax, if_true]
      constructor
      · intro h
        exact absurd h (by decide)
      · rintro ⟨-, h⟩
        omega
    · simp only [hmax, if_false]
      constructor
      · intro h
        exact ⟨h, by omega⟩
      · intro h
        exact h.1

theorem safeAllocMul_of_le {a b : ℕ} (ha : 0 < a) (hb : 0 < b) (hle : a * b ≤ mxAlloc) :
    safeAllocMul true a b = true := by
  have hmax : a ≤ sizeMax / b := by
    rw [Nat.le_div_iff_mul_le hb]
    exact Nat.le_trans hle (by decide)
  have hpos : a * b ≠ 0 := Nat.ne_of_gt (Nat.mul_pos ha hb)
  have hmul : safeMulSize a b = some (a * b) := (safeMulSize_eq_some hb).mpr ⟨hmax, rfl⟩
  have hno : ¬(a * b = 0 ∨ mxAlloc < a * b) := by omega
  rw [safeAllocMul, hmul]
  simp only [safeAlloc, hno, if_false]

end Th8
