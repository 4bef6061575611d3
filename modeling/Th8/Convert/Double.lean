import Mathlib.Data.List.TakeWhile
import Th8.Convert.WideLiterals
import Th8.Number.ScaleByPow10

/-!
# Conversion of strings to doubles

`Th8_ToDouble` reads a sign, then one of the words for the special values or digits with a
fraction and an exponent.  A double is its bit pattern.  The word for infinity is
recognized by its first four letters and its length.
-/

namespace Th8

open Support

/-! ## The source function -/

def isDecimal (c : Byte) : Bool := 0x30 ≤ c && c ≤ 0x39

def decimalValue (c : Byte) : ℕ := c.toNat - 0x30

def nanBits : ℕ := 0x7FF8000000000000

def infBits : ℕ := 0x7FF0000000000000

def negateBits (u : ℕ) : ℕ := u ^^^ 2 ^ 63

/-- The whole text is `NaN`. -/
def isNanWord : Bytes → Bool
  | [a, b, c] => (a == 0x4e || a == 0x6e) && (b == 0x61 || b == 0x41) && (c == 0x4e || c == 0x6e)
  | _ => false

/-- The whole text is taken for `Inf` or `Infinity`. -/
def isInfWord : Bytes → Bool
  | a :: b :: c :: rest => (a == 0x49 || a == 0x69) && (b == 0x6e || b == 0x4e) &&
      (c == 0x66 || c == 0x46) &&
      match rest with
      | [] => true
      | [d, _, _, _, _] => d == 0x69 || d == 0x49
      | _ => false
  | _ => false

structure Mantissa where
  mantissa : ℕ
  decExp : ℤ
  truncated : Bool
deriving DecidableEq

namespace Mantissa

def start : Mantissa := ⟨0, 0, false⟩

def room (m : Mantissa) : Bool := !m.truncated && m.mantissa ≤ 1844674407370955160

def intDigit (m : Mantissa) (c : Byte) : Mantissa :=
  if m.room then { m with mantissa := m.mantissa * 10 + decimalValue c }
  else { m with truncated := true, decExp := m.decExp + 1 }

def fracDigit (m : Mantissa) (c : Byte) : Mantissa :=
  if m.room then
    { m with mantissa := m.mantissa * 10 + decimalValue c, decExp := m.decExp - 1 }
  else { m with truncated := true }

end Mantissa

def expValue (digits : Bytes) : ℕ :=
  digits.foldl (fun expVal c => if expVal < 100000 then expVal * 10 + decimalValue c
    else expVal) 0

def takeFraction (z : Bytes) : Bytes × Bytes :=
  match z with
  | 0x2e :: rest => (rest.takeWhile isDecimal, rest.dropWhile isDecimal)
  | _ => ([], z)

def takeExponent (z : Bytes) : Option (ℤ × Bytes) :=
  match z with
  | [] => some (0, [])
  | c :: rest =>
    if c = 0x65 ∨ c = 0x45 then
      let digits := (takeSign rest).2.takeWhile isDecimal
      if digits = [] then none
      else some (signed (takeSign rest).1 (expValue digits), (takeSign rest).2.dropWhile isDecimal)
    else some (0, c :: rest)

/-- The part of `Th8_ToDouble` after the special values.  Whether the exact comparison is
available for the rounding is `bigint`. -/
def parseDecimal (bigint : Bool) (expected : Failure) (body : Bytes) : Except Failure ℕ :=
  let zInt := body.takeWhile isDecimal
  let (zFrac, tail) := takeFraction (body.dropWhile isDecimal)
  let m := zFrac.foldl Mantissa.fracDigit (zInt.foldl Mantissa.intDigit Mantissa.start)
  if zInt = [] ∧ zFrac = [] then .error expected
  else
    match takeExponent tail with
    | none => .error expected
    | some (exp, rest) =>
      if rest = [] then .ok (Number.scaleByPow10 bigint m.mantissa (m.decExp + exp))
      else .error expected

/-- `Th8_ToDouble` on a cache miss, and whether the result goes to the cache. -/
def parseDouble (bigint : Bool) (z : Bytes) : Except Failure (ℕ × Bool) :=
  let expected := Failure.message "expected number, got: \"" z
  let (neg, body) := takeSign z
  let withSign (u : ℕ) : ℕ := if neg then negateBits u else u
  if isNanWord body then .ok (nanBits, false)
  else if isInfWord body then .ok (withSign infBits, false)
  else (parseDecimal bigint expected body).map fun u => (withSign u, true)

example : parseDouble true (ascii "-0.5e1") = .ok (0xC014000000000000, true) := by
  decide

/-- The entries of type `TH8_CACHE_DOUBLE` that hold a value. -/
abbrev DoubleCache := Bytes → Option ℕ

namespace DoubleCache

def toDouble (cache : DoubleCache) (bigint : Bool) (z : Bytes) : Except Failure ℕ :=
  match cache z with
  | some v => .ok v
  | none => (parseDouble bigint z).map Prod.fst

def store (cache : DoubleCache) (bigint : Bool) (z : Bytes) : DoubleCache :=
  if (cache z).isSome then cache
  else
    match parseDouble bigint z with
    | .ok (v, true) => Function.update cache z (some v)
    | _ => cache

end DoubleCache

inductive DoubleOp where
  | toDouble (bigint : Bool) (z : Bytes)
  | evict (z : Bytes)

def DoubleCache.step (cache : DoubleCache) : DoubleOp → DoubleCache
  | .toDouble bigint z => cache.store bigint z
  | .evict z => Function.update cache z none

theorem DoubleCache.store_cases (cache : DoubleCache) (bigint : Bool) (z : Bytes) :
    cache.store bigint z = cache ∨
      ∃ v, parseDouble bigint z = .ok (v, true) ∧
        cache.store bigint z = Function.update cache z (some v) := by
  unfold DoubleCache.store
  by_cases hhit : (cache z).isSome = true
  · exact .inl (if_pos hhit)
  · rw [if_neg hhit]
    rcases parseDouble bigint z with e | ⟨v, _ | _⟩
    · exact .inl rfl
    · exact .inl rfl
    · exact .inr ⟨v, rfl, rfl⟩

def DoubleCache.Readable (cache : DoubleCache) : Prop :=
  ∀ z v, cache z = some v → ∃ bigint r, parseDouble bigint z = .ok r

theorem DoubleCache.Readable.step {cache : DoubleCache} (h : cache.Readable)
    (op : DoubleOp) : (cache.step op).Readable := by
  intro y v hy
  cases op with
  | evict z =>
    by_cases hyz : y = z
    · subst hyz
      simp [DoubleCache.step] at hy
    · rw [DoubleCache.step, Function.update_of_ne hyz] at hy
      exact h y v hy
  | toDouble bigint z =>
    rw [DoubleCache.step] at hy
    rcases cache.store_cases bigint z with hsame | ⟨w, hparse, hstore⟩
    · rw [hsame] at hy
      exact h y v hy
    · rw [hstore] at hy
      by_cases hyz : y = z
      · subst hyz
        exact ⟨bigint, _, hparse⟩
      · rw [Function.update_of_ne hyz] at hy
        exact h y v hy

theorem DoubleCache.readable_of_reachable {cache : DoubleCache}
    (h : Reachable DoubleCache.step (fun _ => none) cache) : cache.Readable := by
  refine h.invariant ?_ fun cache op hcache _ => hcache.step op
  intro z v hz
  cases hz

end Th8
