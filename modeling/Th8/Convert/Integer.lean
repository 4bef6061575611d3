import Mathlib.Algebra.Order.Ring.Int
import Mathlib.Tactic.Linarith
import Mathlib.Tactic.NormNum
import Th8.Core.Value
import Th8.Support.Outcome
import Th8.Support.Transition

/-!
# Conversion of strings to integers

`Th8_ToInt` and `Th8_ToWideInt` read an optional sign and digits.  Only the second one
knows the prefixes of other bases, and it takes a leading zero in front of an octal
digit for one.  Both remember what they read in a cache of their own.
-/

namespace Th8

open Support

/-- The range of a C `int`. -/
def intMax : ℕ := 2 ^ 31 - 1

def int64Max : ℕ := 2 ^ 63 - 1

def takeSign (z : Bytes) : Bool × Bytes :=
  match z with
  | 0x2d :: rest => (true, rest)
  | 0x2b :: rest => (false, rest)
  | _ => (false, z)

def signed (neg : Bool) (val : ℕ) : ℤ := if neg then -val else val

def hexDigit (c : Byte) : Option ℕ :=
  if 0x30 ≤ c ∧ c ≤ 0x39 then some (c.toNat - 0x30)
  else if 0x61 ≤ c ∧ c ≤ 0x66 then some (c.toNat - 0x61 + 10)
  else if 0x41 ≤ c ∧ c ≤ 0x46 then some (c.toNat - 0x41 + 10)
  else none

/-- The digit loop of `Th8_ToInt`. -/
def accumInt (expected : Failure) (val : ℕ) : Bytes → Except Failure ℕ
  | [] => .ok val
  | c :: rest =>
    if c < 0x30 ∨ 0x39 < c then .error expected
    else
      let digit := c.toNat - 0x30
      if (intMax - digit) / 10 < val then
        .error (.static "integer value too large to represent")
      else accumInt expected (val * 10 + digit) rest

/-- `Th8_ToInt` on a cache miss. -/
def parseInt (z : Bytes) : Except Failure ℤ :=
  let expected := Failure.message "expected integer, got: \"" z
  if (takeSign z).2 = [] then .error expected
  else (accumInt expected 0 (takeSign z).2).map (signed (takeSign z).1)

/-- The base that `Th8_ToWideInt` finds, and the digits it goes on with. -/
def detectBase (body : Bytes) : ℕ × Bytes :=
  match body with
  | 0x30 :: c2 :: rest =>
    if c2 = 0x78 ∨ c2 = 0x58 then (16, rest)
    else if c2 = 0x6f ∨ c2 = 0x4f then (8, rest)
    else if c2 = 0x62 ∨ c2 = 0x42 then (2, rest)
    else if 0x30 ≤ c2 ∧ c2 ≤ 0x37 then (8, c2 :: rest)
    else (10, body)
  | _ => (10, body)

/-- The digit loop of `Th8_ToWideInt`.  The magnitude of the smallest number does not
fit, and is let through as the last digit brings it about. -/
def accumWide (expected : Failure) (neg : Bool) (base val : ℕ) : Bytes → Except Failure ℤ
  | [] => .ok (signed neg val)
  | c :: rest =>
    match hexDigit c with
    | none => .error expected
    | some digit =>
      if base ≤ digit then .error expected
      else if (int64Max - digit) / base < val then
        if neg ∧ rest = [] ∧ val = int64Max / base ∧
            digit = 2 ^ 63 - int64Max / base * base then .ok (-2 ^ 63)
        else .error (.static "integer value too large to represent")
      else accumWide expected neg base (val * base + digit) rest

/-- `Th8_ToWideInt` on a cache miss. -/
def parseWideInt (z : Bytes) : Except Failure ℤ :=
  let expected := Failure.message "expected integer, got: \"" z
  if (takeSign z).2 = [] then .error expected
  else
    let base := (detectBase (takeSign z).2).1
    let digits := (detectBase (takeSign z).2).2
    if digits = [] then .error expected
    else accumWide expected (takeSign z).1 base 0 digits

/-! ## The caches -/

/-- The entries of type `TH8_CACHE_INT` and `TH8_CACHE_WIDE` that hold a value. -/
structure ConvCache where
  int : Bytes → Option ℤ
  wide : Bytes → Option ℤ

def ConvCache.empty : ConvCache := ⟨fun _ => none, fun _ => none⟩

namespace ConvCache

def toInt (cache : ConvCache) (z : Bytes) : Except Failure ℤ :=
  match cache.int z with
  | some v => .ok v
  | none => parseInt z

def toWideInt (cache : ConvCache) (z : Bytes) : Except Failure ℤ :=
  match cache.wide z with
  | some v => .ok v
  | none => parseWideInt z

end ConvCache

/-- What happens to the caches: a conversion stores what it read, unless there is no
memory for the entry, and an entry is evicted or displaced by another string. -/
inductive ConvOp where
  | toInt (z : Bytes)
  | toWideInt (z : Bytes)
  | evictInt (z : Bytes)
  | evictWide (z : Bytes)

def storeResult (m : Bytes → Option ℤ) (z : Bytes) (r : Except Failure ℤ) : Bytes → Option ℤ :=
  match r with
  | .ok v => if v = -2 ^ 63 then m else Function.update m z (some v)
  | .error _ => m

def ConvCache.step (cache : ConvCache) : ConvOp → ConvCache
  | .toInt z => { cache with int := storeResult cache.int z (cache.toInt z) }
  | .toWideInt z => { cache with wide := storeResult cache.wide z (cache.toWideInt z) }
  | .evictInt z => { cache with int := Function.update cache.int z none }
  | .evictWide z => { cache with wide := Function.update cache.wide z none }

def ConvCache.Coherent (cache : ConvCache) : Prop :=
  (∀ z v, cache.int z = some v → parseInt z = .ok v) ∧
    ∀ z v, cache.wide z = some v → parseWideInt z = .ok v

variable {cache : ConvCache}

theorem ConvCache.Coherent.toInt_eq (h : cache.Coherent) (z : Bytes) :
    cache.toInt z = parseInt z := by
  unfold ConvCache.toInt
  cases hz : cache.int z with
  | none => rfl
  | some v => exact (h.1 z v hz).symm

theorem ConvCache.Coherent.toWideInt_eq (h : cache.Coherent) (z : Bytes) :
    cache.toWideInt z = parseWideInt z := by
  unfold ConvCache.toWideInt
  cases hz : cache.wide z with
  | none => rfl
  | some v => exact (h.2 z v hz).symm

theorem storeResult_coherent {parse : Bytes → Except Failure ℤ} {m : Bytes → Option ℤ}
    (hm : ∀ z v, m z = some v → parse z = .ok v) (z : Bytes) :
    ∀ y v, storeResult m z (parse z) y = some v → parse y = .ok v := by
  intro y v hy
  unfold storeResult at hy
  cases hz : parse z with
  | error e =>
    rw [hz] at hy
    exact hm y v hy
  | ok w =>
    rw [hz] at hy
    dsimp only at hy
    split_ifs at hy
    · exact hm y v hy
    · by_cases hyz : y = z
      · subst hyz
        rw [Function.update_self] at hy
        rw [hz, Option.some.inj hy]
      · rw [Function.update_of_ne hyz] at hy
        exact hm y v hy

theorem evict_coherent {parse : Bytes → Except Failure ℤ} {m : Bytes → Option ℤ}
    (hm : ∀ z v, m z = some v → parse z = .ok v) (z : Bytes) :
    ∀ y v, Function.update m z none y = some v → parse y = .ok v := by
  intro y v hy
  by_cases hyz : y = z
  · subst hyz
    simp at hy
  · rw [Function.update_of_ne hyz] at hy
    exact hm y v hy

theorem ConvCache.Coherent.step (h : cache.Coherent) (op : ConvOp) : (cache.step op).Coherent := by
  cases op with
  | toInt z =>
    refine ⟨?_, h.2⟩
    have hstore := storeResult_coherent h.1 z
    rw [← h.toInt_eq z] at hstore
    exact hstore
  | toWideInt z =>
    refine ⟨h.1, ?_⟩
    have hstore := storeResult_coherent h.2 z
    rw [← h.toWideInt_eq z] at hstore
    exact hstore
  | evictInt z => exact ⟨evict_coherent h.1 z, h.2⟩
  | evictWide z => exact ⟨h.1, evict_coherent h.2 z⟩

theorem ConvCache.coherent_of_reachable (h : Reachable ConvCache.step ConvCache.empty cache) :
    cache.Coherent := by
  refine h.invariant ⟨?_, ?_⟩ fun cache op hcache _ => hcache.step op
  · intro z v hz
    cases hz
  · intro z v hz
    cases hz

/-! ## What the digits denote -/

/-- The number that digits of a base denote, after the number `val`. -/
def numeral (base val : ℕ) : Bytes → Option ℕ
  | [] => some val
  | c :: rest =>
    match hexDigit c with
    | none => none
    | some digit => if digit < base then numeral base (val * base + digit) rest else none

variable {base val w : ℕ} {z : Bytes}

theorem numeral_ge (hbase : 0 < base) (h : numeral base val z = some w) : val ≤ w := by
  induction z generalizing val with
  | nil => exact (Option.some.inj h).le
  | cons c rest ih =>
    rw [numeral] at h
    cases hc : hexDigit c with
    | none => simp [hc] at h
    | some digit =>
      simp only [hc, Option.ite_none_right_eq_some] at h
      exact (Nat.le_mul_of_pos_right val hbase).trans ((Nat.le_add_right _ _).trans (ih h.2))

theorem hexDigit_lt_ten {c : Byte} {digit : ℕ} :
    (hexDigit c = some digit ∧ digit < 10) ↔ ¬ (c < 0x30 ∨ 0x39 < c) ∧ digit = c.toNat - 0x30 := by
  rw [hexDigit, not_or, UInt8.not_lt, UInt8.not_lt]
  split_ifs with hdec hlow hupp
  · have hle : c.toNat ≤ 0x39 := UInt8.le_iff_toNat_le.mp hdec.2
    simp only [Option.some.injEq, hdec, and_self, true_and]
    constructor
    · exact fun h => h.1.symm
    · rintro rfl
      exact ⟨rfl, by omega⟩
  · simp only [Option.some.injEq, hdec, false_and, iff_false, not_and]
    omega
  · simp only [Option.some.injEq, hdec, false_and, iff_false, not_and]
    omega
  · simp [hdec]

variable {expected : Failure}

theorem accumInt_eq_ok_iff (hval : val ≤ intMax) :
    accumInt expected val z = .ok w ↔ numeral 10 val z = some w ∧ w ≤ intMax := by
  induction z generalizing val with
  | nil =>
    simp only [accumInt, numeral, Except.ok.injEq, Option.some.injEq]
    exact ⟨fun h => ⟨h, h ▸ hval⟩, fun h => h.1⟩
  | cons c rest ih =>
    rw [accumInt, numeral]
    by_cases hc : c < 0x30 ∨ 0x39 < c
    · rw [if_pos hc]
      cases hdigit : hexDigit c with
      | none => simp
      | some digit =>
        have hge : ¬ digit < 10 := fun hlt =>
          (hexDigit_lt_ten.mp ⟨hdigit, hlt⟩).1 hc
        simp [hge]
    · obtain ⟨hdigit, hlt⟩ := hexDigit_lt_ten.mpr ⟨hc, rfl⟩
      rw [if_neg hc, hdigit]
      simp only [hlt, if_true]
      by_cases hbig : (intMax - (c.toNat - 0x30)) / 10 < val
      · rw [if_pos hbig]
        simp only [reduceCtorEq, false_iff, not_and, not_le]
        intro h
        have := numeral_ge (by omega) h
        omega
      · rw [if_neg hbig]
        exact ih (by unfold intMax at hbig ⊢; omega)

variable {neg : Bool}

theorem accumWide_of_numeral (hbase : 0 < base) (h : numeral base val z = some w)
    (hw : w ≤ int64Max) :
    accumWide expected neg base val z = .ok (signed neg w) := by
  induction z generalizing val with
  | nil =>
    cases h
    rfl
  | cons c rest ih =>
    rw [numeral] at h
    rw [accumWide]
    cases hc : hexDigit c with
    | none => simp [hc] at h
    | some digit =>
      simp only [hc, Option.ite_none_right_eq_some] at h
      obtain ⟨hdigit, h⟩ := h
      have hle := (numeral_ge hbase h).trans hw
      have hroom : ¬ (int64Max - digit) / base < val := by
        rw [not_lt, Nat.le_div_iff_mul_le hbase]
        omega
      simp only [not_le.mpr hdigit, if_false, hroom]
      exact ih h

theorem numeral_of_accumWide {v : ℤ} (h : accumWide expected neg base val z = .ok v)
    (hv : v ≠ -2 ^ 63) :
    ∃ w, numeral base val z = some w ∧ v = signed neg w := by
  induction z generalizing val with
  | nil => exact ⟨val, rfl, (Except.ok.inj h).symm⟩
  | cons c rest ih =>
    rw [accumWide] at h
    rw [numeral]
    cases hc : hexDigit c with
    | none => simp [hc] at h
    | some digit =>
      simp only [hc] at h
      split_ifs at h with hdigit hroom hmin
      · exact absurd (Except.ok.inj h).symm hv
      · simp only [not_le.mp hdigit, if_true]
        exact ih h

/-! ## Where the two agree -/

def ConversionsAgree (cache : ConvCache) (z : Bytes) : Prop :=
  (∀ v, cache.toWideInt z = .ok v → -2 ^ 31 ≤ v → v < 2 ^ 31 → cache.toInt z = .ok v) ∧
    ∀ v, cache.toInt z = .ok v → cache.toWideInt z = .ok v

/-- The number with its sign is in the range of an `int`. -/
def fitsInt (neg : Bool) (w : ℕ) : Prop :=
  -2 ^ 31 ≤ signed neg w ∧ signed neg w < 2 ^ 31

/-- The strings on which the two differ: the smallest `int` in decimal, a base prefix
with digits of its base whose value fits an `int`, and a leading zero in front of digits
that denote one number in octal and another in decimal, or none in octal, where one of
the two fits. -/
def ConversionsDiffer (z : Bytes) : Prop :=
  let neg := (takeSign z).1
  match (takeSign z).2 with
  | 0x30 :: c2 :: rest =>
    let base := (detectBase (0x30 :: c2 :: rest)).1
    if 0x30 ≤ c2 ∧ c2 ≤ 0x37 then
      match numeral 8 0 (c2 :: rest) with
      | some w => numeral 10 0 (c2 :: rest) ≠ some w ∧ fitsInt neg w
      | none => ∃ w ≤ intMax, numeral 10 0 (c2 :: rest) = some w
    else if base = 10 then neg = true ∧ numeral 10 0 (0x30 :: c2 :: rest) = some (2 ^ 31)
    else rest ≠ [] ∧ ∃ w, numeral base 0 rest = some w ∧ fitsInt neg w
  | body => neg = true ∧ numeral 10 0 body = some (2 ^ 31)

theorem signed_inj {w' : ℕ} : signed neg w = signed neg w' ↔ w = w' := by
  cases neg <;> simp [signed]

theorem fitsInt_iff : fitsInt neg w ↔ w ≤ intMax ∨ (neg = true ∧ w = 2 ^ 31) := by
  unfold fitsInt intMax
  cases neg with
  | false => simp [signed]; omega
  | true => simp [signed]; omega

theorem parseInt_eq_ok_iff {v : ℤ} :
    parseInt z = .ok v ↔
      (takeSign z).2 ≠ [] ∧ ∃ w ≤ intMax, numeral 10 0 (takeSign z).2 = some w ∧
        signed (takeSign z).1 w = v := by
  unfold parseInt
  by_cases hbody : (takeSign z).2 = []
  · simp [hbody]
  · simp only [hbody, if_false, ne_eq, not_false_eq_true, true_and]
    constructor
    · intro h
      obtain ⟨w, hw, rfl⟩ := map_eq_ok.mp h
      obtain ⟨hnum, hle⟩ := (accumInt_eq_ok_iff (by decide)).mp hw
      exact ⟨w, hle, hnum, rfl⟩
    · rintro ⟨w, hle, hnum, rfl⟩
      rw [(accumInt_eq_ok_iff (by decide)).mpr ⟨hnum, hle⟩]
      rfl

theorem parseWideInt_eq_ok_iff (hfits : fitsInt (takeSign z).1 w) :
    parseWideInt z = .ok (signed (takeSign z).1 w) ↔
      (takeSign z).2 ≠ [] ∧ (detectBase (takeSign z).2).2 ≠ [] ∧
        numeral (detectBase (takeSign z).2).1 0 (detectBase (takeSign z).2).2 = some w := by
  have hbase : 0 < (detectBase (takeSign z).2).1 := by
    unfold detectBase
    split
    · split_ifs <;> norm_num
    · norm_num
  unfold parseWideInt
  by_cases hbody : (takeSign z).2 = []
  · simp [hbody]
  by_cases hdigits : (detectBase (takeSign z).2).2 = []
  · simp [hbody, hdigits]
  simp only [hbody, hdigits, if_false, ne_eq, not_false_eq_true, true_and]
  constructor
  · intro h
    obtain ⟨w', hw', heq⟩ := numeral_of_accumWide h (by
      have := hfits.1
      intro hmin
      rw [hmin] at this
      norm_num at this)
    rwa [signed_inj.mp heq]
  · intro h
    refine accumWide_of_numeral hbase h ?_
    rcases fitsInt_iff.mp hfits with hle | ⟨-, rfl⟩
    · exact hle.trans (by decide)
    · decide

theorem conversionsAgree_iff_numerals (hcache : cache.Coherent) {body digits : Bytes}
    (hsign : takeSign z = (neg, body)) (hbase : detectBase body = (base, digits))
    (hbody : body ≠ []) (hdigits : digits ≠ []) :
    ConversionsAgree cache z ↔
      (∀ w, numeral base 0 digits = some w → fitsInt neg w →
        numeral 10 0 body = some w ∧ w ≤ intMax) ∧
      ∀ w ≤ intMax, numeral 10 0 body = some w → numeral base 0 digits = some w := by
  have hwide : ∀ w, fitsInt neg w →
      (parseWideInt z = .ok (signed neg w) ↔ numeral base 0 digits = some w) := by
    intro w hw
    have := parseWideInt_eq_ok_iff (z := z) (w := w) (by rw [hsign]; exact hw)
    simpa [hsign, hbase, hbody, hdigits] using this
  have hint : ∀ w, parseInt z = .ok (signed neg w) ↔ numeral 10 0 body = some w ∧ w ≤ intMax := by
    intro w
    rw [parseInt_eq_ok_iff]
    simp only [hsign, ne_eq, hbody, not_false_eq_true, true_and, signed_inj]
    constructor
    · rintro ⟨w', hle, hnum, rfl⟩
      exact ⟨hnum, hle⟩
    · rintro ⟨hnum, hle⟩
      exact ⟨w, hle, hnum, rfl⟩
  have hfits : ∀ {w}, w ≤ intMax → fitsInt neg w := fun h => fitsInt_iff.mpr (.inl h)
  unfold ConversionsAgree
  rw [hcache.toInt_eq, hcache.toWideInt_eq]
  refine and_congr ⟨fun h w hw hfit => ?_, fun h v hv hlow hhigh => ?_⟩
    ⟨fun h w hle hw => ?_, fun h v hv => ?_⟩
  · exact (hint w).mp (h _ ((hwide w hfit).mpr hw) hfit.1 hfit.2)
  · have hsigned : ∃ w, v = signed neg w := by
      unfold parseWideInt at hv
      simp only [hsign, hbody, if_false, hbase, hdigits] at hv
      obtain ⟨w, -, hw⟩ := numeral_of_accumWide hv (by omega)
      exact ⟨w, hw⟩
    obtain ⟨w, rfl⟩ := hsigned
    have hfit : fitsInt neg w := ⟨hlow, hhigh⟩
    exact (hint w).mpr (h w ((hwide w hfit).mp hv) hfit)
  · exact (hwide w (hfits hle)).mp (h _ ((hint w).mpr ⟨hw, hle⟩))
  · obtain ⟨-, w, hle, hnum, rfl⟩ := parseInt_eq_ok_iff.mp hv
    rw [hsign] at hnum ⊢
    exact (hwide w (hfits hle)).mpr (h w hle hnum)

theorem numeral_octal_le {val' : ℕ} (hval : val ≤ val') (h : numeral 8 val z = some w) :
    ∃ w', numeral 10 val' z = some w' ∧ w ≤ w' := by
  induction z generalizing val val' with
  | nil =>
    cases h
    exact ⟨val', rfl, hval⟩
  | cons c rest ih =>
    rw [numeral] at h ⊢
    cases hc : hexDigit c with
    | none => simp [hc] at h
    | some digit =>
      simp only [hc, Option.ite_none_right_eq_some] at h
      simp only [show digit < 10 by omega, if_true]
      exact ih (by omega) h.2

theorem numeral_mod (hz : z ≠ []) (h : numeral base val z = some w) :
    hexDigit (z.getLast hz) = some (w % base) := by
  induction z generalizing val with
  | nil => exact absurd rfl hz
  | cons c rest ih =>
    rw [numeral] at h
    cases hc : hexDigit c with
    | none => simp [hc] at h
    | some digit =>
      simp only [hc, Option.ite_none_right_eq_some] at h
      obtain ⟨hdigit, h⟩ := h
      by_cases hrest : rest = []
      · subst hrest
        cases h
        simp [hc, Nat.mod_eq_of_lt hdigit]
      · rw [List.getLast_cons hrest]
        exact ih hrest h

theorem conversionsAgree_decimal (hcache : cache.Coherent) {body : Bytes}
    (hsign : takeSign z = (neg, body)) (hbase : detectBase body = (10, body)) (hbody : body ≠ []) :
    ConversionsAgree cache z ↔ ¬ (neg = true ∧ numeral 10 0 body = some (2 ^ 31)) := by
  rw [conversionsAgree_iff_numerals hcache hsign hbase hbody hbody]
  constructor
  · rintro ⟨h, -⟩ ⟨hneg, hnum⟩
    have hle := (h _ hnum (fitsInt_iff.mpr (.inr ⟨hneg, rfl⟩))).2
    norm_num [intMax] at hle
  · refine fun h => ⟨fun w hw hfit => ⟨hw, ?_⟩, fun w _ hw => hw⟩
    rcases fitsInt_iff.mp hfit with hle | ⟨hneg, rfl⟩
    · exact hle
    · exact absurd ⟨hneg, hw⟩ h

variable {c2 : Byte}

theorem numeral_ten_prefixed (rest : Bytes) (hletter : 0x39 < c2) :
    numeral 10 0 (0x30 :: c2 :: rest) = none := by
  have hzero : hexDigit 0x30 = some 0 := by decide
  rw [numeral, hzero]
  simp only [Nat.zero_lt_succ, if_true]
  rw [numeral]
  cases hc : hexDigit c2 with
  | none => rfl
  | some digit =>
    have hge : ¬ digit < 10 := fun hlt =>
      (hexDigit_lt_ten.mp ⟨hc, hlt⟩).1 (.inr hletter)
    simp [hge]

theorem conversionsAgree_prefixed (hcache : cache.Coherent) {rest : Bytes}
    (hsign : takeSign z = (neg, 0x30 :: c2 :: rest))
    (hbase : detectBase (0x30 :: c2 :: rest) = (base, rest)) (hletter : 0x39 < c2) :
    ConversionsAgree cache z ↔
      ¬ (rest ≠ [] ∧ ∃ w, numeral base 0 rest = some w ∧ fitsInt neg w) := by
  have hnone := numeral_ten_prefixed rest hletter
  by_cases hrest : rest = []
  · subst hrest
    have hint : ∀ v, parseInt z ≠ .ok v := by
      intro v hv
      obtain ⟨-, w, -, hnum, -⟩ := parseInt_eq_ok_iff.mp hv
      rw [hsign, hnone] at hnum
      cases hnum
    have hwide : ∀ v, parseWideInt z ≠ .ok v := by
      intro v hv
      simp [parseWideInt, hsign, hbase] at hv
    simp [ConversionsAgree, hcache.toInt_eq, hcache.toWideInt_eq, hint, hwide]
  · rw [conversionsAgree_iff_numerals hcache hsign hbase (by simp) hrest, hnone]
    simp [hrest]

theorem conversionsAgree_leadingZero (hcache : cache.Coherent) {rest : Bytes}
    (hsign : takeSign z = (neg, 0x30 :: c2 :: rest))
    (hbase : detectBase (0x30 :: c2 :: rest) = (8, c2 :: rest)) :
    ConversionsAgree cache z ↔ ¬ (match numeral 8 0 (c2 :: rest) with
        | some w => numeral 10 0 (c2 :: rest) ≠ some w ∧ fitsInt neg w
        | none => ∃ w ≤ intMax, numeral 10 0 (c2 :: rest) = some w) := by
  have hzero : numeral 10 0 (0x30 :: c2 :: rest) = numeral 10 0 (c2 :: rest) := by
    rw [numeral, show hexDigit 0x30 = some 0 by decide]
    rfl
  rw [conversionsAgree_iff_numerals hcache hsign hbase (by simp) (by simp), hzero]
  cases hoct : numeral 8 0 (c2 :: rest) with
  | none => simp
  | some w =>
    obtain ⟨w', hdec, hle⟩ := numeral_octal_le (le_refl 0) hoct
    simp only [hdec, Option.some.injEq, forall_eq', ne_eq, not_and]
    by_cases heq : w' = w
    · subst heq
      refine ⟨fun _ h => absurd rfl h, fun _ => ⟨fun hfit => ⟨rfl, ?_⟩, ?_⟩⟩
      · -- the smallest `int` ends in a digit that octal does not have
        rcases fitsInt_iff.mp hfit with hle' | ⟨-, rfl⟩
        · exact hle'
        · have h8 := numeral_mod (by simp) hoct
          have h10 := numeral_mod (by simp) hdec
          rw [h8] at h10
          norm_num at h10
      · rintro v - rfl
        rfl
    · constructor
      · rintro ⟨h, -⟩ - hfit
        exact heq (h hfit).1
      · intro h
        refine ⟨fun hfit => absurd hfit (h heq), fun v hv hv' => ?_⟩
        subst hv'
        exact absurd (fitsInt_iff.mpr (.inl (hle.trans hv))) (h heq)

/-- The two conversions agree, whatever was converted before, except on the strings
described. -/
theorem conversionsAgree_iff (cache : ConvCache)
    (hcache : Reachable ConvCache.step ConvCache.empty cache) (z : Bytes) :
    ConversionsAgree cache z ↔ ¬ ConversionsDiffer z := by
  have hcoherent := ConvCache.coherent_of_reachable hcache
  obtain ⟨neg, body, hsign⟩ : ∃ neg body, takeSign z = (neg, body) := ⟨_, _, rfl⟩
  unfold ConversionsDiffer
  simp only [hsign]
  split
  · rename_i c2 rest
    by_cases hoctal : 0x30 ≤ c2 ∧ c2 ≤ 0x37
    · have hbase : detectBase (0x30 :: c2 :: rest) = (8, c2 :: rest) := by
        have hletter : ∀ c : Byte, 0x37 < c → c2 ≠ c := by
          rintro c hc rfl
          exact absurd hoctal.2 (UInt8.not_le.mpr hc)
        simp only [detectBase, hoctal, and_self, if_true,
          hletter 0x78 (by decide), hletter 0x58 (by decide), hletter 0x6f (by decide),
          hletter 0x4f (by decide), hletter 0x62 (by decide), hletter 0x42 (by decide),
          or_self, if_false]
      rw [if_pos hoctal]
      exact conversionsAgree_leadingZero hcoherent hsign hbase
    · rw [if_neg hoctal]
      by_cases hletter : c2 = 0x78 ∨ c2 = 0x58 ∨ c2 = 0x6f ∨ c2 = 0x4f ∨ c2 = 0x62 ∨ c2 = 0x42
      · obtain ⟨base, hbase, hne⟩ : ∃ base,
            detectBase (0x30 :: c2 :: rest) = (base, rest) ∧ base ≠ 10 := by
          rcases hletter with rfl | rfl | rfl | rfl | rfl | rfl
          · exact ⟨16, rfl, by decide⟩
          · exact ⟨16, rfl, by decide⟩
          · exact ⟨8, rfl, by decide⟩
          · exact ⟨8, rfl, by decide⟩
          · exact ⟨2, rfl, by decide⟩
          · exact ⟨2, rfl, by decide⟩
        have hgt : 0x39 < c2 := by
          rcases hletter with rfl | rfl | rfl | rfl | rfl | rfl <;> decide
        simp only [hbase, hne, if_false]
        exact conversionsAgree_prefixed hcoherent hsign hbase hgt
      · have hbase : detectBase (0x30 :: c2 :: rest) = (10, 0x30 :: c2 :: rest) := by
          simp only [not_or] at hletter
          simp [detectBase, hletter, hoctal]
        simp only [hbase, if_true]
        exact conversionsAgree_decimal hcoherent hsign hbase (by simp)
  · rename_i hplain
    by_cases hbody : body = []
    · subst hbody
      simp [ConversionsAgree, hcoherent.toInt_eq, hcoherent.toWideInt_eq, parseInt,
        parseWideInt, hsign, numeral]
    · have hbase : detectBase body = (10, body) := by
        unfold detectBase
        split
        · exact absurd rfl (hplain _ _)
        · rfl
      exact conversionsAgree_decimal hcoherent hsign hbase hbody

/-- After the decimal string was converted, both conversions give its value. -/
theorem conversionsAgree_decimal_cached :
    ConversionsAgree (ConvCache.empty.step (.toInt (ascii "-42"))) (ascii "-42") := by
  refine (conversionsAgree_iff _ (.step _ .init trivial) (ascii "-42")).mpr fun h => ?_
  have hnum : numeral 10 0 (ascii "42") = some (2 ^ 31) := h.2
  revert hnum
  decide +kernel

/-- A hexadecimal string is an integer for only one of the two. -/
theorem conversions_disagree_hex :
    ¬ ∀ (cache : ConvCache), Reachable ConvCache.step ConvCache.empty cache →
      ∀ z, ConversionsAgree cache z := by
  intro h
  have hint := (h ConvCache.empty .init (ascii "0x10")).1 16 (by decide +kernel)
    (by norm_num) (by norm_num)
  revert hint
  decide +kernel

end Th8
