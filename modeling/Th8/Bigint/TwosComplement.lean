import Th8.Bigint.Library

/-!
# Two's complement fields

`th8BigintToTwosComplement` writes an integer into a field of given width,
`th8BigintFromTwosComplement` reads one, and `th8BigintMinTwosComplementBytes` finds the
width that an integer needs.  The number of bits of a field is cast to an `int`.
-/

namespace Th8.Bigint

open Support List Nat Int

/-! ## The source functions -/

def fieldWidthError : Failure := .static "j/J field width must be at least 1 byte"

def fieldRangeError : Failure := .static "integer value too large for j/J field"

def outOfMemory : Failure := .static "bigint: out of memory"

def conversionError : Failure := .static "bigint: conversion error"

/-- The value of a `size_t` after an operation. -/
def sizeT (x : ℤ) : ℤ := x % 2 ^ 64

/-- `(int)(nBytes * 8)`. -/
def modExponent (nBytes : ℕ) : ℤ := wrapInt (sizeT (nBytes * 8))

/-- `(int)(nBytes * 8 - 1)`. -/
def halfExponent (nBytes : ℕ) : ℤ := wrapInt (sizeT (sizeT (nBytes * 8) - 1))

def swapEnds (pBuf : Bytes) (i : ℕ) : Bytes :=
  (pBuf.set i (pBuf.getD (pBuf.length - 1 - i) 0)).set (pBuf.length - 1 - i) (pBuf.getD i 0)

def reverseInPlace (pBuf : Bytes) : Bytes :=
  (List.range (pBuf.length / 2)).foldl swapEnds pBuf

/-- The range check of `th8BigintToTwosComplement`, and the number whose bytes are
written. -/
def fieldValue (mp : MpLib) (v mod half : ℤ) : Except Failure ℤ :=
  if mp.isneg v then do
    let negV ← expect outOfMemory (mp.neg v)
    if mp.cmp negV half = .gt then .error fieldRangeError
    else expect outOfMemory (mp.add v mod)
  else if mp.cmp v half ≠ .lt then .error fieldRangeError
  else .ok v

/-- The bytes that `mp_to_ubin` writes, if there are any. -/
def magnitudeBytes (mp : MpLib) (v : ℤ) (nUbin : ℕ) : Except Failure Bytes :=
  if 0 < nUbin then expect conversionError (mp.toUbin v nUbin) else .ok []

def writeField (mp : MpLib) (v : ℤ) (nBytes : ℕ) (bBigEndian : Bool) : Except Failure Bytes :=
  let nUbin := mp.ubinSize v
  if nBytes < nUbin then .error fieldRangeError
  else do
    let ubin ← magnitudeBytes mp v nUbin
    let pBuf := List.replicate (nBytes - nUbin) 0 ++ ubin
    .ok (if bBigEndian then pBuf else reverseInPlace pBuf)

/-- `th8BigintToTwosComplement`: the bytes of the field. -/
def toTwosComplement (mp : MpLib) (zVal : Bytes) (nBytes : ℕ) (bBigEndian : Bool) :
    Except Failure Bytes :=
  if nBytes = 0 then .error fieldWidthError
  else do
    let v ← expect (.static "expected integer") (fromStr mp zVal)
    let mod ← expect outOfMemory (mp.twoExpt (modExponent nBytes))
    let half ← expect outOfMemory (mp.twoExpt (halfExponent nBytes))
    let v ← fieldValue mp v mod half
    writeField mp v nBytes bBigEndian

def mostSignificantFirst (pBuf : Bytes) (bBigEndian : Bool) : Bytes :=
  if bBigEndian then pBuf
  else (List.range pBuf.length).map fun i => pBuf.getD (pBuf.length - 1 - i) 0

/-- `th8BigintFromTwosComplement`: the text that becomes the result. -/
def fromTwosComplement (mp : MpLib) (pBuf : Bytes) (bBigEndian : Bool) : Except Failure Bytes :=
  if pBuf.length = 0 then .ok [0x30]
  else do
    let pSrc := mostSignificantFirst pBuf bBigEndian
    let v ← expect conversionError (mp.fromUbin pSrc)
    let v ←
      if pSrc.headD 0 &&& 0x80 ≠ 0 then do
        let mod ← expect outOfMemory (mp.twoExpt (modExponent pBuf.length))
        expect outOfMemory (mp.sub v mod)
      else .ok v
    toResult mp v

/-- `th8BigintMinTwosComplementBytes`. -/
def minTwosComplementBytes (mp : MpLib) (zVal : Bytes) : Except Failure ℕ := do
  let v ← expect (.static "expected integer") (fromStr mp zVal)
  if mp.iszero v then .ok 1
  else do
    let bits := mp.countBits v
    let neededBits ←
      if mp.isneg v then do
        let absV ← expect outOfMemory (mp.abs v)
        .ok (if mp.cntLsb absV = bits - 1 then bits else bits + 1)
      else .ok (bits + 1)
    .ok ((neededBits + 7) / 8)

/-- The number of bytes whose bits the cast to `int` leaves. -/
def castBytes (nBytes : ℕ) : ℕ := nBytes % 2 ^ 29

theorem modExponent_eq {n : ℕ} (h : castBytes n < 2 ^ 28) : modExponent n = 8 * castBytes n := by
  unfold castBytes at h ⊢
  simp only [modExponent, wrapInt, sizeT, Int.bmod]
  omega

theorem halfExponent_eq {n : ℕ} (h0 : 0 < castBytes n) (h : castBytes n < 2 ^ 28) :
    halfExponent n = 8 * castBytes n - 1 := by
  unfold castBytes at h0 h ⊢
  simp only [halfExponent, wrapInt, sizeT, Int.bmod]
  omega

theorem exponent_neg {n : ℕ} (h : ¬ (0 < castBytes n ∧ castBytes n < 2 ^ 28)) :
    modExponent n < 0 ∨ halfExponent n < 0 := by
  unfold castBytes at h
  simp only [modExponent, halfExponent, wrapInt, sizeT, Int.bmod]
  omega

/-! ## The order of the bytes -/

theorem length_swapEnds (pBuf : Bytes) (i : ℕ) : (swapEnds pBuf i).length = pBuf.length := by
  rw [swapEnds, length_set, length_set]

theorem getD_set (pBuf : Bytes) {i j : ℕ} (hi : i < pBuf.length) (c : Byte) :
    (pBuf.set i c).getD j 0 = if j = i then c else pBuf.getD j 0 := by
  rw [getD_eq_getElem?_getD, getD_eq_getElem?_getD, getElem?_set]
  by_cases hij : i = j
  · rw [if_pos hij, if_pos hi, if_pos hij.symm]
    rfl
  · rw [if_neg hij, if_neg fun h => hij h.symm]

theorem foldl_swapEnds (pBuf : Bytes) {k : ℕ} (hk : k ≤ pBuf.length / 2) :
    ((List.range k).foldl swapEnds pBuf).length = pBuf.length ∧
      ∀ j < pBuf.length, ((List.range k).foldl swapEnds pBuf).getD j 0 =
        if j < k ∨ pBuf.length - k ≤ j then pBuf.getD (pBuf.length - 1 - j) 0
        else pBuf.getD j 0 := by
  induction k with
  | zero =>
    refine ⟨rfl, fun j hj => ?_⟩
    rw [if_neg (by omega)]
    rfl
  | succ k ih =>
    obtain ⟨hlen, hget⟩ := ih (by omega)
    rw [range_succ, foldl_append, foldl_cons, foldl_nil]
    refine ⟨by rw [length_swapEnds, hlen], fun j hj => ?_⟩
    have hlast := hget (pBuf.length - 1 - k) (by omega)
    have hfirst := hget k (by omega)
    rw [if_neg (by omega)] at hlast hfirst
    rw [swapEnds, hlen, getD_set _ (by rw [length_set, hlen]; omega),
      getD_set _ (by rw [hlen]; omega), hlast, hfirst, hget j hj]
    by_cases hj1 : j = pBuf.length - 1 - k
    · rw [if_pos hj1, if_pos (by omega)]
      congr 1
      omega
    · rw [if_neg hj1]
      by_cases hj2 : j = k
      · rw [if_pos hj2, if_pos (by omega), hj2]
      · rw [if_neg hj2]
        exact if_congr (by omega) rfl rfl

theorem reverseInPlace_eq (pBuf : Bytes) : reverseInPlace pBuf = pBuf.reverse := by
  obtain ⟨hlen, hget⟩ := foldl_swapEnds pBuf le_rfl
  refine ext_getElem (by rw [length_reverse]; exact hlen) fun j h1 h2 => ?_
  have hj : j < pBuf.length := by simpa using h2
  have h := hget j hj
  rw [getD_eq_getElem _ _ (by rw [hlen]; exact hj)] at h
  refine h.trans ?_
  rw [getElem_reverse, getD_eq_getElem _ _ (by omega), getD_eq_getElem _ _ hj]
  split_ifs with hmid
  · rfl
  · congr 1
    omega

theorem mostSignificantFirst_eq (pBuf : Bytes) (bBigEndian : Bool) :
    mostSignificantFirst pBuf bBigEndian = if bBigEndian then pBuf else pBuf.reverse := by
  rw [mostSignificantFirst]
  split_ifs with hbe
  · rfl
  · refine ext_getElem (by simp) fun j h1 h2 => ?_
    have hj : j < pBuf.length := by simpa using h2
    rw [getElem_reverse, getElem_map, getElem_range, getD_eq_getElem _ _ (by omega)]

theorem signBit_and (c : Byte) : c &&& 0x80 ≠ 0 ↔ 128 ≤ c.toNat := by
  have hall : ∀ m < 256, m &&& 128 ≠ 0 ↔ 128 ≤ m := by decide +kernel
  rw [Ne, ← UInt8.toNat_inj, UInt8.toNat_and]
  exact hall c.toNat c.toNat_lt

def inOrder (bBigEndian : Bool) (z : Bytes) : Bytes := if bBigEndian then z else z.reverse

@[simp] theorem length_inOrder (bBigEndian : Bool) (z : Bytes) :
    (inOrder bBigEndian z).length = z.length := by
  cases bBigEndian
  · exact length_reverse
  · rfl

@[simp] theorem mostSignificantFirst_inOrder (bBigEndian : Bool) (z : Bytes) :
    mostSignificantFirst (inOrder bBigEndian z) bBigEndian = z := by
  rw [mostSignificantFirst_eq]
  cases bBigEndian
  · exact reverse_reverse z
  · rfl

/-- A number in a field of `n` bytes. -/
def padded (n u : ℕ) : Bytes := List.replicate (n - (toBytes u).length) 0 ++ toBytes u

theorem length_padded {n u : ℕ} (h : u < 2 ^ (8 * n)) : (padded n u).length = n := by
  have := length_toBytes_le.mpr h
  rw [padded, length_append, length_replicate]
  omega

theorem ofBytes_padded (n u : ℕ) : ofBytes (padded n u) = u := by
  rw [padded, ofBytes_replicate_append, ofBytes_toBytes]

/-! ## What the three functions compute -/

theorem writeField_eq {mp : MpLib} (hmp : mp.Exact) {u n : ℕ} (hu : u < 2 ^ (8 * n))
    (bBigEndian : Bool) :
    writeField mp u n bBigEndian = .ok (inOrder bBigEndian (padded n u)) := by
  have hlen : (toBytes u).length ≤ n := length_toBytes_le.mpr hu
  have hubin : magnitudeBytes mp u (toBytes u).length = .ok (toBytes u) := by
    rw [magnitudeBytes]
    split_ifs with hpos
    · rw [hmp.toUbin (by rw [natAbs_natCast])]
      rfl
    · rw [length_eq_zero_iff.mp (Nat.eq_zero_of_not_pos hpos)]
  rw [writeField, hmp.ubinSize, natAbs_natCast]
  simp only [not_lt.mpr hlen, if_false, hubin, ok_bind, reverseInPlace_eq]
  rfl

theorem fieldValue_eq {mp : MpLib} (hmp : mp.Exact) (v : ℤ) (k : ℕ) :
    fieldValue mp v (2 ^ (k + 1)) (2 ^ k) =
      if TwosRange (k + 1) v then .ok (twosPattern (k + 1) v : ℤ)
      else .error fieldRangeError := by
  have hpow : ((2 ^ k : ℕ) : ℤ) = 2 ^ k := by push_cast; rfl
  simp only [fieldValue, hmp.isneg, hmp.neg, hmp.add, hmp.cmp, twosRange_succ, twosPattern,
    expect_some, ok_bind, decide_eq_true_eq, pow_succ, ← hpow, compare_gt_iff_gt,
    compare_lt_iff_lt, ne_eq, not_lt]
  by_cases hv : v < 0
  · rw [if_pos hv, if_pos hv]
    split_ifs with h1 h2 h2
    · omega
    · rfl
    · congr 1
      omega
    · omega
  · rw [if_neg hv, if_neg hv]
    split_ifs with h1 h2 h2
    · omega
    · rfl
    · congr 1
      omega
    · omega

theorem toTwosComplement_of_fromStr {mp : MpLib} (hmp : mp.Exact) {n : ℕ}
    (h0 : 0 < castBytes n) (h : castBytes n < 2 ^ 28) {zVal : Bytes} {v : ℤ}
    (hval : fromStr mp zVal = some v) (bBigEndian : Bool) :
    toTwosComplement mp zVal n bBigEndian =
      if TwosRange (8 * castBytes n) v then
        .ok (inOrder bBigEndian (padded n (twosPattern (8 * castBytes n) v)))
      else .error fieldRangeError := by
  have hle : castBytes n ≤ n := mod_le _ _
  obtain ⟨k, hk⟩ : ∃ k, 8 * castBytes n = k + 1 := ⟨8 * castBytes n - 1, by omega⟩
  have hmod : mp.twoExpt (modExponent n) = some (2 ^ (k + 1)) := by
    rw [modExponent_eq h, hmp.twoExpt (by omega), ← hk]
    rfl
  have hhalf : mp.twoExpt (halfExponent n) = some (2 ^ k) := by
    rw [halfExponent_eq h0 h, hmp.twoExpt (by omega)]
    congr 2
    omega
  rw [toTwosComplement, if_neg (by omega), hval, hmod, hhalf, hk]
  simp only [expect_some, ok_bind, fieldValue_eq hmp]
  split_ifs with hrange
  · exact writeField_eq hmp ((twosPattern_lt hrange).trans_le
      (Nat.pow_le_pow_right (by norm_num) (hk ▸ Nat.mul_le_mul_left 8 hle))) bBigEndian
  · rfl

theorem toTwosComplement_eq {mp : MpLib} (hmp : mp.Exact) {n : ℕ}
    (h0 : 0 < castBytes n) (h : castBytes n < 2 ^ 28) (v : ℤ) (bBigEndian : Bool) :
    toTwosComplement mp (decimal v) n bBigEndian =
      if TwosRange (8 * castBytes n) (leadingDigits v) then
        .ok (inOrder bBigEndian (padded n (twosPattern (8 * castBytes n) (leadingDigits v))))
      else .error fieldRangeError :=
  toTwosComplement_of_fromStr hmp h0 h (fromStr_decimal hmp v) bBigEndian

theorem length_toTwosComplement {mp : MpLib} (hmp : mp.Exact) {zVal : Bytes} {n : ℕ}
    {bBigEndian : Bool} {z : Bytes} (h : toTwosComplement mp zVal n bBigEndian = .ok z) :
    z.length = n := by
  rw [toTwosComplement] at h
  by_cases hn : n = 0
  · rw [if_pos hn] at h
    cases h
  rw [if_neg hn] at h
  obtain ⟨v, -, h⟩ := bind_eq_ok.mp h
  obtain ⟨mod, -, h⟩ := bind_eq_ok.mp h
  obtain ⟨half, -, h⟩ := bind_eq_ok.mp h
  obtain ⟨u, -, h⟩ := bind_eq_ok.mp h
  rw [writeField] at h
  by_cases hroom : n < mp.ubinSize u
  · rw [if_pos hroom] at h
    cases h
  rw [if_neg hroom] at h
  obtain ⟨ubin, hubin, h⟩ := bind_eq_ok.mp h
  have hlen : ubin.length = mp.ubinSize u := by
    rw [magnitudeBytes, hmp.ubinSize] at hubin
    rw [hmp.ubinSize]
    split_ifs at hubin with hpos
    · rw [hmp.toUbin le_rfl] at hubin
      rw [← Except.ok.inj hubin]
    · rw [← Except.ok.inj hubin, length_nil]
      omega
  rw [← Except.ok.inj h, reverseInPlace_eq]
  split_ifs
  · rw [length_append, length_replicate, hlen]
    omega
  · rw [length_reverse, length_append, length_replicate, hlen]
    omega

theorem fromTwosComplement_of_lt {mp : MpLib} (hmp : mp.Exact) {z : Bytes}
    (hz : 2 * ofBytes z < 2 ^ (8 * z.length)) (bBigEndian : Bool) :
    fromTwosComplement mp (inOrder bBigEndian z) bBigEndian = .ok (decimal (ofBytes z)) := by
  rcases z with _ | ⟨c, rest⟩
  · simp [fromTwosComplement, ofBytes, decimal_zero]
  · have hbit : ¬ (c &&& 0x80 ≠ 0) := by
      rw [signBit_and]
      exact fun h => absurd ((signBit_iff c rest).mp h) (not_le.mpr hz)
    simp only [fromTwosComplement, length_inOrder, length_cons, succ_ne_zero,
      if_false, mostSignificantFirst_inOrder, hmp.fromUbin, expect_some, ok_bind,
      headD_cons, if_neg hbit, toResult_eq hmp]

theorem fromTwosComplement_of_le {mp : MpLib} (hmp : mp.Exact) {z : Bytes}
    (hz : 2 ^ (8 * z.length) ≤ 2 * ofBytes z) (hcast : castBytes z.length = z.length)
    (hlen : z.length < 2 ^ 28) (bBigEndian : Bool) :
    fromTwosComplement mp (inOrder bBigEndian z) bBigEndian =
      .ok (decimal (ofBytes z - 2 ^ (8 * z.length))) := by
  rcases z with _ | ⟨c, rest⟩
  · simp [ofBytes] at hz
  · have hbit : c &&& 0x80 ≠ 0 := by
      rw [signBit_and]
      exact (signBit_iff c rest).mpr hz
    have hmod : mp.twoExpt (modExponent (c :: rest).length) =
        some (2 ^ (8 * (c :: rest).length)) := by
      rw [modExponent_eq (by rw [hcast]; exact hlen), hcast, hmp.twoExpt (by omega)]
      congr 2
    rw [length_cons] at hmod
    simp only [fromTwosComplement, length_inOrder, length_cons, succ_ne_zero,
      if_false, mostSignificantFirst_inOrder, hmp.fromUbin, expect_some, ok_bind,
      headD_cons, if_pos hbit, hmod, hmp.sub, toResult_eq hmp]

theorem fromTwosComplement_eq {mp : MpLib} (hmp : mp.Exact) {z : Bytes}
    (hlen : z.length < 2 ^ 28) (bBigEndian : Bool) :
    fromTwosComplement mp (inOrder bBigEndian z) bBigEndian =
      .ok (decimal (twosValue (8 * z.length) (ofBytes z))) := by
  have hcast : castBytes z.length = z.length := mod_eq_of_lt (by omega)
  rw [twosValue]
  split_ifs with hsign
  · exact fromTwosComplement_of_le hmp hsign hcast hlen bBigEndian
  · exact fromTwosComplement_of_lt hmp (not_le.mp hsign) bBigEndian

theorem cntLsb_eq_iff {mp : MpLib} (hmp : mp.Exact) {m : ℕ} (hm : 0 < m) :
    mp.cntLsb (m : ℤ) = Nat.size m - 1 ↔ 2 ^ (Nat.size m - 1) = m := by
  obtain ⟨hdvd, hndvd⟩ := hmp.cntLsb (a := (m : ℤ)) (by omega)
  generalize mp.cntLsb (m : ℤ) = t at hdvd hndvd ⊢
  replace hdvd : 2 ^ t ∣ m := by exact_mod_cast hdvd
  replace hndvd : ¬ 2 ^ (t + 1) ∣ m := by exact_mod_cast hndvd
  constructor
  · rintro rfl
    obtain ⟨q, hq⟩ := hdvd
    have hlt : m < 2 ^ (Nat.size m - 1) * 2 := by
      rw [← pow_succ, Nat.sub_add_cancel (Nat.size_pos.mpr hm)]
      exact lt_size_self m
    have hq2 : q < 2 := by
      by_contra h
      have := Nat.mul_le_mul_left (2 ^ (Nat.size m - 1)) (not_lt.mp h)
      omega
    have hq0 : q ≠ 0 := by
      rintro rfl
      omega
    obtain rfl : q = 1 := by omega
    omega
  · intro h
    rw [← h] at hdvd hndvd
    rw [pow_dvd_pow_iff_le_right (by norm_num)] at hdvd hndvd
    omega

theorem minTwosComplementBytes_eq {mp : MpLib} (hmp : mp.Exact) (v : ℤ) :
    minTwosComplementBytes mp (decimal v) = .ok (twosBytes (leadingDigits v)) := by
  rw [minTwosComplementBytes, fromStr_decimal hmp]
  generalize leadingDigits v = w
  simp only [expect_some, ok_bind, hmp.iszero, hmp.countBits, hmp.isneg, hmp.abs, twosBytes,
    decide_eq_true_eq]
  by_cases h0 : w = 0
  · subst h0
    rfl
  · rw [if_neg h0]
    by_cases hneg : w < 0
    · rw [if_pos hneg, twosBits_of_neg hneg, abs_eq_natAbs]
      simp only [cntLsb_eq_iff hmp (natAbs_pos.mpr h0)]
    · rw [if_neg hneg, twosBits_of_nonneg (not_lt.mp hneg)]

/-! ## The round trip -/

def TwosComplementExact (mp : MpLib) (v : ℤ) (n : ℕ) (bBigEndian : Bool) : Prop :=
  (TwosRange (8 * n) v → ∃ pBuf, toTwosComplement mp (decimal v) n bBigEndian = .ok pBuf ∧
    fromTwosComplement mp pBuf bBigEndian = .ok (decimal v)) ∧
  (¬ TwosRange (8 * n) v → ∃ e, toTwosComplement mp (decimal v) n bBigEndian = .error e) ∧
  ∃ k, minTwosComplementBytes mp (decimal v) = .ok k ∧ IsLeast {m | TwosRange (8 * m) v} k

theorem minTwosComplementBytes_isLeast_iff {mp : MpLib} (hmp : mp.Exact) (v : ℤ) :
    (∃ k, minTwosComplementBytes mp (decimal v) = .ok k ∧
      IsLeast {m | TwosRange (8 * m) v} k) ↔ twosBytes (leadingDigits v) = twosBytes v := by
  rw [minTwosComplementBytes_eq hmp]
  constructor
  · rintro ⟨k, hk, hleast⟩
    exact (Except.ok.inj hk).trans (hleast.unique (isLeast_twosBytes v))
  · intro h
    exact ⟨_, rfl, h ▸ isLeast_twosBytes v⟩

theorem fromTwosComplement_padded {mp : MpLib} (hmp : mp.Exact) {n : ℕ} {w : ℤ}
    (h0 : 0 < castBytes n) (h : castBytes n < 2 ^ 28)
    (hw : TwosRange (8 * castBytes n) w) (bBigEndian : Bool) :
    fromTwosComplement mp (inOrder bBigEndian (padded n (twosPattern (8 * castBytes n) w)))
        bBigEndian =
      .ok (decimal (if n < 2 ^ 28 then w else twosPattern (8 * castBytes n) w)) := by
  have hle : castBytes n ≤ n := mod_le _ _
  have hu := twosPattern_lt hw
  have hlen : (padded n (twosPattern (8 * castBytes n) w)).length = n :=
    length_padded (hu.trans_le (Nat.pow_le_pow_right (by norm_num) (by omega)))
  have hof := ofBytes_padded n (twosPattern (8 * castBytes n) w)
  split_ifs with hn
  · have hcast : castBytes n = n := mod_eq_of_lt (by omega)
    have hval := twosValue_twosPattern hw
    rw [hcast] at hlen hof hval ⊢
    unfold twosValue at hval
    split_ifs at hval with hsign
    · rw [fromTwosComplement_of_le hmp (by rwa [hlen, hof]) (by rwa [hlen])
        (by rwa [hlen]), hof, hlen, hval]
    · rw [fromTwosComplement_of_lt hmp (by rw [hlen, hof]; omega), hof, hval]
  · have hlt : castBytes n < n := by omega
    rw [fromTwosComplement_of_lt hmp, hof]
    rw [hlen, hof]
    calc 2 * twosPattern (8 * castBytes n) w < 2 * 2 ^ (8 * castBytes n) := by omega
      _ = 2 ^ (8 * castBytes n + 1) := (pow_succ' 2 _).symm
      _ ≤ 2 ^ (8 * n) := Nat.pow_le_pow_right (by norm_num) (by omega)

/-- The condition on a width that the cast to `int` leaves a positive one. -/
def CastPositive (n : ℕ) : Prop := 0 < castBytes n ∧ castBytes n < 2 ^ 28

theorem twosComplementExact_iff_of_castPositive {mp : MpLib} (hmp : mp.Exact) {n : ℕ}
    (hn : CastPositive n) (v : ℤ) (bBigEndian : Bool) :
    TwosComplementExact mp v n bBigEndian ↔
      (TwosRange (8 * n) v → TwosRange (8 * castBytes n) (leadingDigits v) ∧
        (if n < 2 ^ 28 then leadingDigits v
          else twosPattern (8 * castBytes n) (leadingDigits v)) = v) ∧
      (¬ TwosRange (8 * n) v → ¬ TwosRange (8 * castBytes n) (leadingDigits v)) ∧
      twosBytes (leadingDigits v) = twosBytes v := by
  rw [TwosComplementExact, minTwosComplementBytes_isLeast_iff hmp,
    toTwosComplement_eq hmp hn.1 hn.2]
  by_cases hw : TwosRange (8 * castBytes n) (leadingDigits v)
  · simp only [hw, if_true, Except.ok.injEq, exists_eq_left', true_and, reduceCtorEq,
      exists_false, not_true_eq_false, fromTwosComplement_padded hmp hn.1 hn.2 hw,
      decimal_injective.eq_iff]
  · simp [hw]

theorem twosBytes_leadingDigits_le (v : ℤ) : twosBytes (leadingDigits v) ≤ 213 := by
  have hlt : (leadingDigits v).natAbs < 2 ^ 1698 :=
    (natAbs_leadingDigits_lt v).trans_le (by decide +kernel)
  have := twosBits_le_of_natAbs_lt hlt
  rw [twosBytes]
  omega

theorem twosComplementExact_zero {mp : MpLib} (hmp : mp.Exact) (v : ℤ) (bBigEndian : Bool) :
    TwosComplementExact mp v 0 bBigEndian ↔ twosBytes (leadingDigits v) = twosBytes v := by
  rw [TwosComplementExact, minTwosComplementBytes_isLeast_iff hmp]
  simp [not_twosRange_zero, toTwosComplement]

theorem not_twosComplementExact_of_cast {n : ℕ} (hn : n ≠ 0) (hcast : ¬ CastPositive n)
    (v : ℤ) (bBigEndian : Bool) : ¬ TwosComplementExact referenceLib v n bBigEndian := by
  intro h
  have hleast := (minTwosComplementBytes_isLeast_iff referenceLib_exact v).mp h.2.2
  have hbig : 2 ^ 28 ≤ n := by
    by_contra hlt
    have : castBytes n = n := mod_eq_of_lt (by omega)
    exact hcast ⟨by omega, by omega⟩
  have hrange : TwosRange (8 * n) v := by
    have := twosBytes_leadingDigits_le v
    exact twosRange_iff_twosBytes_le.mpr (by omega)
  obtain ⟨pBuf, hok, -⟩ := h.1 hrange
  rw [toTwosComplement, if_neg hn, fromStr_decimal referenceLib_exact] at hok
  have hrefuse {b : ℤ} (hb : b < 0) : referenceLib.twoExpt b = none := if_pos hb
  rcases exponent_neg hcast with hneg | hneg
  · rw [hrefuse hneg] at hok
    cases hok
  · rw [hrefuse hneg] at hok
    cases hm : referenceLib.twoExpt (modExponent n) with
    | none =>
      rw [hm] at hok
      cases hok
    | some m =>
      rw [hm] at hok
      cases hok

theorem twosComplementExact_iff_of_lt {mp : MpLib} (hmp : mp.Exact) {n : ℕ}
    (hn : n < 2 ^ 28) (v : ℤ) (bBigEndian : Bool) :
    TwosComplementExact mp v n bBigEndian ↔
      v.natAbs < 10 ^ fromStrDigits ∨
        (n < twosBytes v ∧ twosBytes (leadingDigits v) = twosBytes v) := by
  rw [← leadingDigits_eq_self]
  rcases Nat.eq_zero_or_pos n with rfl | hpos
  · rw [twosComplementExact_zero hmp]
    constructor
    · intro h
      have := twosBits_pos v
      exact .inr ⟨by rw [twosBytes]; omega, h⟩
    · rintro (h | h)
      · rw [h]
      · exact h.2
  · have hcast : castBytes n = n := mod_eq_of_lt (by omega)
    rw [twosComplementExact_iff_of_castPositive hmp ⟨by omega, by omega⟩, hcast, if_pos hn]
    simp only [twosRange_iff_twosBytes_le]
    constructor
    · rintro ⟨hin, -, hleast⟩
      by_cases hv : twosBytes v ≤ n
      · exact .inl (hin hv).2
      · exact .inr ⟨not_le.mp hv, hleast⟩
    · rintro (h | ⟨hlt, hleast⟩)
      · rw [h]
        exact ⟨fun hv => ⟨hv, rfl⟩, id, rfl⟩
      · exact ⟨fun hv => absurd hv (not_le.mpr hlt), fun hv => by rwa [hleast], hleast⟩

theorem twosComplementExact_iff_of_ge {mp : MpLib} (hmp : mp.Exact) {n : ℕ}
    (hn : 2 ^ 28 ≤ n) (hcast : CastPositive n) (v : ℤ) (bBigEndian : Bool) :
    TwosComplementExact mp v n bBigEndian ↔
      0 ≤ v ∧ v.natAbs < 10 ^ fromStrDigits ∧ twosBytes v ≤ castBytes n := by
  rw [twosComplementExact_iff_of_castPositive hmp hcast, if_neg (not_lt.mpr hn),
    ← leadingDigits_eq_self]
  simp only [twosRange_iff_twosBytes_le]
  have hle : castBytes n ≤ n := mod_le _ _
  constructor
  · rintro ⟨hin, -, hleast⟩
    have hsmall := twosBytes_leadingDigits_le v
    obtain ⟨hw, hval⟩ := hin (by omega)
    have hnonneg : 0 ≤ v := by
      rw [← hval]
      exact natCast_nonneg _
    have hpattern : twosPattern (8 * castBytes n) (leadingDigits v) = leadingDigits v := by
      rw [twosPattern, if_neg fun h => absurd (leadingDigits_neg_iff h) (not_lt.mpr hnonneg)]
      exact toNat_of_nonneg
        (not_lt.mp fun h => absurd (leadingDigits_neg_iff h) (not_lt.mpr hnonneg))
    rw [hpattern] at hval
    exact ⟨hnonneg, hval, hval ▸ hw⟩
  · rintro ⟨hnonneg, hself, hw⟩
    rw [hself]
    refine ⟨fun _ => ⟨hw, ?_⟩, fun hv => absurd (hw.trans hle) hv, rfl⟩
    rw [twosPattern, if_neg (not_lt.mpr hnonneg), toNat_of_nonneg hnonneg]

/-- Encoding, decoding and the least width are those of two's complement, whatever exact
library is used, exactly when an `int` counts the bits of the field and the decimal digits
of the integer fit into the buffer of `th8BigintFromStr`, or where what goes wrong does not
show: the field is too small for the integer and for its leading digits, or the integer is
not negative and fits into the width that the cast leaves. -/
theorem twosComplement_exact_iff (v : ℤ) (n : ℕ) (bBigEndian : Bool) :
    (∀ mp : MpLib, mp.Exact → TwosComplementExact mp v n bBigEndian) ↔
      (n < 2 ^ 28 ∧ (v.natAbs < 10 ^ fromStrDigits ∨
        (n < twosBytes v ∧ twosBytes (leadingDigits v) = twosBytes v))) ∨
      (2 ^ 28 ≤ n ∧ CastPositive n ∧ 0 ≤ v ∧ v.natAbs < 10 ^ fromStrDigits ∧
        twosBytes v ≤ castBytes n) := by
  by_cases hn : n < 2 ^ 28
  · simp only [hn, true_and, not_le.mpr hn, false_and, or_false]
    exact ⟨fun h => (twosComplementExact_iff_of_lt referenceLib_exact hn v bBigEndian).mp
      (h _ referenceLib_exact),
      fun h mp hmp => (twosComplementExact_iff_of_lt hmp hn v bBigEndian).mpr h⟩
  · simp only [hn, false_and, false_or, not_lt.mp hn, true_and]
    constructor
    · intro h
      have href := h _ referenceLib_exact
      have hcast : CastPositive n := by
        by_contra hcast
        exact not_twosComplementExact_of_cast (by omega) hcast v bBigEndian href
      exact ⟨hcast, (twosComplementExact_iff_of_ge referenceLib_exact (not_lt.mp hn) hcast v
        bBigEndian).mp href⟩
    · rintro ⟨hcast, h⟩ mp hmp
      exact (twosComplementExact_iff_of_ge hmp (not_lt.mp hn) hcast v bBigEndian).mpr h

/-- An integer of 512 digits is in the range of 213 bytes, and a tenth of it comes back. -/
theorem twosComplement_truncated :
    TwosRange (8 * 213) (10 ^ 511) ∧
    (∃ pBuf, toTwosComplement referenceLib (decimal (10 ^ 511)) 213 true = .ok pBuf ∧
      fromTwosComplement referenceLib pBuf true = .ok (decimal (10 ^ 510))) ∧
    ¬ ∀ (v : ℤ) (n : ℕ) (bBigEndian : Bool) (mp : MpLib), mp.Exact →
      TwosComplementExact mp v n bBigEndian := by
  have hcast : castBytes 213 = 213 := by decide
  have hleading : leadingDigits (10 ^ 511) = 10 ^ 510 := by decide +kernel
  have hrange : TwosRange (8 * 213) (10 ^ 511) := twosRange_iff_twosBytes_le.mpr (by decide +kernel)
  have hwritten : TwosRange (8 * castBytes 213) (leadingDigits (10 ^ 511)) := by
    rw [hcast, hleading]
    exact twosRange_iff_twosBytes_le.mpr (by decide +kernel)
  refine ⟨hrange, ?_, fun h => ?_⟩
  · rw [toTwosComplement_eq referenceLib_exact (by decide) (by decide), if_pos hwritten]
    refine ⟨_, rfl, ?_⟩
    rw [fromTwosComplement_padded referenceLib_exact (by decide) (by decide) hwritten,
      if_pos (by norm_num), hleading]
  · have hexact := (twosComplementExact_iff_of_castPositive referenceLib_exact
      ⟨by decide, by decide⟩ (10 ^ 511) true).mp (h _ 213 true _ referenceLib_exact)
    have hsame := (hexact.1 hrange).2
    rw [if_pos (by norm_num), hleading] at hsame
    norm_num at hsame

end Th8.Bigint
