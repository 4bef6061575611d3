import Mathlib.Data.List.Basic
import Mathlib.Tactic.IntervalCases
import Th8.Support.WideInt

/-!
# Numbers and small cells in bytes

A number is stored byte by byte and put together again, its sign is found in its highest
bit, and cells of a few bits are packed into bytes, from either end of each byte.
-/

namespace Support

open List

/-! ## Bytes of a number -/

/-- The lowest `n` bytes of a number, the least significant one first. -/
def storeLe (n u : ℕ) : List UInt8 := (List.range n).map fun k => UInt8.ofNat (u >>> (8 * k))

def storeBe (n u : ℕ) : List UInt8 := (storeLe n u).reverse

def loadLe : List UInt8 → ℕ
  | [] => 0
  | b :: rest => b.toNat ||| (loadLe rest <<< 8)

def loadBe (p : List UInt8) : ℕ := loadLe p.reverse

@[simp] theorem length_storeLe (n u : ℕ) : (storeLe n u).length = n := by simp [storeLe]

@[simp] theorem length_storeBe (n u : ℕ) : (storeBe n u).length = n := by simp [storeBe]

theorem storeLe_succ (n u : ℕ) : storeLe (n + 1) u = UInt8.ofNat u :: storeLe n (u >>> 8) := by
  simp only [storeLe, range_succ_eq_map, map_cons, map_map, Nat.mul_zero, Nat.shiftRight_zero]
  refine congrArg _ (map_congr_left fun k _ => ?_)
  rw [Function.comp_apply, ← Nat.shiftRight_add, Nat.succ_eq_add_one, Nat.mul_add, Nat.add_comm]

theorem or_shiftLeft {a k : ℕ} (h : a < 2 ^ k) (b : ℕ) : a ||| (b <<< k) = a + 2 ^ k * b := by
  rw [Nat.or_comm, ← Nat.shiftLeft_add_eq_or_of_lt h, Nat.shiftLeft_eq, Nat.mul_comm, Nat.add_comm]

theorem loadLe_cons (b : UInt8) (rest : List UInt8) :
    loadLe (b :: rest) = b.toNat + 256 * loadLe rest :=
  or_shiftLeft (UInt8.toNat_lt b) _

theorem loadLe_storeLe (n u : ℕ) : loadLe (storeLe n u) = u % 2 ^ (8 * n) := by
  induction n generalizing u with
  | zero => simp [storeLe, loadLe, Nat.mod_one]
  | succ n ih =>
    have hpow : 2 ^ (8 * (n + 1)) = 256 * 2 ^ (8 * n) := by
      rw [Nat.mul_add, Nat.pow_add, Nat.mul_comm]
    rw [storeLe_succ, loadLe_cons, ih, UInt8.toNat_ofNat', Nat.shiftRight_eq_div_pow, hpow,
      Nat.mod_mul]

theorem loadBe_storeBe (n u : ℕ) : loadBe (storeBe n u) = u % 2 ^ (8 * n) := by
  rw [loadBe, storeBe, reverse_reverse, loadLe_storeLe]

theorem loadLe_reverse (z : List UInt8) : loadLe z.reverse = ofBytes z := by
  rw [ofBytes]
  induction z.reverse with
  | nil => rfl
  | cons b rest ih => rw [loadLe_cons, ih, map_cons, Nat.ofDigits_cons]

theorem loadBe_eq_ofBytes (z : List UInt8) : loadBe z = ofBytes z := by
  rw [loadBe, loadLe_reverse]

theorem drop_storeBe (m n u : ℕ) : (storeBe (m + n) u).drop m = storeBe n u := by
  rw [storeBe, storeBe, drop_reverse, length_storeLe, Nat.add_sub_cancel_left, storeLe,
    storeLe, ← map_take, take_range, Nat.min_eq_left (Nat.le_add_left n m)]

theorem ofBytes_ones_append (k : ℕ) (z : List UInt8) :
    ofBytes (List.replicate k 0xff ++ z) + 256 ^ z.length = 256 ^ (k + z.length) + ofBytes z := by
  induction k with
  | zero => rw [replicate_zero, nil_append, Nat.zero_add, Nat.add_comm]
  | succ k ih =>
    have hbyte : (0xff : UInt8).toNat = 255 := rfl
    rw [replicate_succ, cons_append, ofBytes_cons, hbyte, length_append,
      length_replicate, Nat.add_right_comm k 1, pow_succ]
    omega

/-- The number in the lowest `bits` bits, with the highest of them as its sign. -/
def signExtend (bits u : ℕ) : ℤ :=
  if (u % 2 ^ bits).testBit (bits - 1) then (u % 2 ^ bits : ℕ) - 2 ^ bits else (u % 2 ^ bits : ℕ)

theorem testBit_high {bits u : ℕ} (h : u < 2 ^ (bits + 1)) :
    u.testBit bits = true ↔ 2 ^ bits ≤ u := by
  refine ⟨Nat.ge_two_pow_of_testBit, fun hle => ?_⟩
  by_contra hbit
  refine absurd (Nat.lt_pow_two_of_testBit u fun i hi => ?_) (not_lt.mpr hle)
  rcases Nat.eq_or_lt_of_le hi with rfl | hlt
  · simpa using hbit
  · exact Nat.testBit_lt_two_pow (h.trans_le (Nat.pow_le_pow_right Nat.zero_lt_two hlt))

theorem signExtend_eq_twosValue (bits u : ℕ) :
    signExtend (bits + 1) u = twosValue (bits + 1) (u % 2 ^ (bits + 1)) := by
  have hlt : u % 2 ^ (bits + 1) < 2 ^ (bits + 1) := Nat.mod_lt _ (by positivity)
  have hhigh : 2 ^ (bits + 1) ≤ 2 * (u % 2 ^ (bits + 1)) ↔
      (u % 2 ^ (bits + 1)).testBit bits = true := by
    rw [testBit_high hlt, pow_succ']
    omega
  rw [signExtend, twosValue, Nat.add_sub_cancel]
  by_cases hbit : (u % 2 ^ (bits + 1)).testBit bits = true
  · rw [if_pos hbit, if_pos (hhigh.mpr hbit)]
  · rw [if_neg hbit, if_neg (mt hhigh.mp hbit)]

theorem twosValue_emod (bits : ℕ) (v : ℤ) :
    twosValue (bits + 1) (v % 2 ^ (bits + 1)).toNat = wrap (bits + 1) v := by
  have hpos : (0 : ℤ) < 2 ^ (bits + 1) := by positivity
  have hnonneg := Int.emod_nonneg v hpos.ne'
  have hcast : ((2 ^ (bits + 1) : ℕ) : ℤ) = 2 ^ (bits + 1) := by push_cast; rfl
  have hnat : 2 ^ (bits + 1) ≤ 2 * (v % 2 ^ (bits + 1)).toNat ↔
      ¬v % 2 ^ (bits + 1) < (2 ^ (bits + 1) + 1) / 2 := by
    rw [← Nat.cast_le (α := ℤ), hcast]
    push_cast
    rw [Int.toNat_of_nonneg hnonneg]
    omega
  rw [twosValue, wrap, Int.bmod_def, hcast, Int.toNat_of_nonneg hnonneg]
  by_cases hlt : v % 2 ^ (bits + 1) < (2 ^ (bits + 1) + 1) / 2
  · rw [if_neg (fun h => hnat.mp h hlt), if_pos hlt]
  · rw [if_pos (hnat.mpr hlt), if_neg hlt]

/-! ## Cells -/

/-- Where the cell `i` begins in its byte, with `m` cells of `k` bits in a byte. -/
def cellShift (m k : ℕ) (hiFirst : Bool) (i : ℕ) : ℕ :=
  k * if hiFirst then m - 1 - i % m else i % m

/-- The first `count` cells in bytes that are zero elsewhere. -/
def packCells (m k : ℕ) (hiFirst : Bool) (count : ℕ) (value : ℕ → ℕ) : List UInt8 :=
  (List.range count).foldl
    (fun p i => p.modify (i / m) fun b => b ||| UInt8.ofNat (value i <<< cellShift m k hiFirst i))
    (List.replicate ((count + (m - 1)) / m) 0)

/-- The cell `i` of bytes. -/
def cellAt (m k : ℕ) (hiFirst : Bool) (p : List UInt8) (i : ℕ) : ℕ :=
  ((p.getD (i / m) 0).toNat >>> cellShift m k hiFirst i) % 2 ^ k

section Cells

variable {m k : ℕ} {hiFirst : Bool} {value : ℕ → ℕ}

theorem length_foldl_modify (f : ℕ → UInt8 → UInt8) (is : List ℕ) (p : List UInt8) :
    (is.foldl (fun p i => p.modify (i / m) (f i)) p).length = p.length := by
  induction is generalizing p with
  | nil => rfl
  | cons i is ih => rw [foldl_cons, ih, length_modify]

theorem length_packCells (count : ℕ) :
    (packCells m k hiFirst count value).length = (count + (m - 1)) / m := by
  rw [packCells, length_foldl_modify, length_replicate]

variable {i t : ℕ}

theorem cellShift_add_lt (hiFirst : Bool) (hm : 0 < m) (ht : t < k) :
    cellShift m k hiFirst i + t < k * m := by
  have hi := Nat.mod_lt i hm
  have hle : (if hiFirst then m - 1 - i % m else i % m) + 1 ≤ m := by
    split_ifs
    · omega
    · omega
  calc cellShift m k hiFirst i + t < cellShift m k hiFirst i + k := by omega
    _ = k * ((if hiFirst then m - 1 - i % m else i % m) + 1) := by rw [cellShift, Nat.mul_succ]
    _ ≤ k * m := Nat.mul_le_mul_left _ hle

variable {j : ℕ}

theorem cellShift_disjoint (hiFirst : Bool) (hm : 0 < m) (hbyte : i / m = j / m) (hne : i ≠ j)
    (ht : t < k) : cellShift m k hiFirst i + t < cellShift m k hiFirst j ∨
      cellShift m k hiFirst j + k ≤ cellShift m k hiFirst i + t := by
  have hi := Nat.mod_lt i hm
  have hj := Nat.mod_lt j hm
  have hmod : i % m ≠ j % m := by
    intro heq
    refine hne ?_
    rw [← Nat.div_add_mod i m, ← Nat.div_add_mod j m, hbyte, heq]
  have hslot : (if hiFirst then m - 1 - i % m else i % m) ≠
      if hiFirst then m - 1 - j % m else j % m := by
    split_ifs
    · omega
    · omega
  rw [cellShift, cellShift]
  rcases Nat.lt_or_gt_of_ne hslot with hlt | hlt
  · refine Or.inl ?_
    calc _ < k * ((if hiFirst then m - 1 - i % m else i % m) + 1) := by
          rw [Nat.mul_succ]
          omega
      _ ≤ _ := Nat.mul_le_mul_left _ hlt
  · refine Or.inr ?_
    calc _ = k * ((if hiFirst then m - 1 - j % m else j % m) + 1) := (Nat.mul_succ _ _).symm
      _ ≤ k * (if hiFirst then m - 1 - i % m else i % m) := Nat.mul_le_mul_left _ hlt
      _ ≤ _ := Nat.le_add_right _ _

variable {v : ℕ}

theorem testBit_shifted {s : ℕ} (hv : v < 2 ^ k) :
    (v <<< s).testBit t = (decide (s ≤ t ∧ t < s + k) && v.testBit (t - s)) := by
  rw [Nat.testBit_shiftLeft]
  by_cases hs : s ≤ t
  · by_cases ht : t < s + k
    · simp [hs, ht]
    · have hhigh : v.testBit (t - s) = false :=
        Nat.testBit_lt_two_pow (hv.trans_le (Nat.pow_le_pow_right Nat.zero_lt_two (by omega)))
      simp [hhigh]
  · simp [hs]

theorem getD_modify_self (p : List UInt8) (hi : i < p.length) (f : UInt8 → UInt8) :
    (p.modify i f).getD i 0 = f (p.getD i 0) := by
  rw [getD_eq_getElem?_getD, getElem?_modify_eq, getD_eq_getElem?_getD, getElem?_eq_getElem hi]
  rfl

theorem getD_modify_of_ne (p : List UInt8) (h : i ≠ j) (f : UInt8 → UInt8) :
    (p.modify j f).getD i 0 = p.getD i 0 := by
  rw [getD_eq_getElem?_getD, getElem?_modify_ne _ _ h.symm, getD_eq_getElem?_getD]

theorem testBit_cellAt (m k : ℕ) (hiFirst : Bool) (p : List UInt8) (i t : ℕ) :
    (cellAt m k hiFirst p i).testBit t =
      (decide (t < k) && (p.getD (i / m) 0).toNat.testBit (cellShift m k hiFirst i + t)) := by
  rw [cellAt, Nat.testBit_mod_two_pow, Nat.testBit_shiftRight]

theorem cellAt_modify_of_ne (hm : 0 < m) (hv : v < 2 ^ k) (hne : i ≠ j) (p : List UInt8) :
    cellAt m k hiFirst
      (p.modify (j / m) fun b => b ||| UInt8.ofNat (v <<< cellShift m k hiFirst j)) i =
      cellAt m k hiFirst p i := by
  refine Nat.eq_of_testBit_eq fun t => ?_
  rw [testBit_cellAt, testBit_cellAt]
  by_cases ht : t < k
  · by_cases hbyte : i / m = j / m
    · by_cases hroom : i / m < p.length
      · have hfree : (v <<< cellShift m k hiFirst j).testBit (cellShift m k hiFirst i + t) =
            false := by
          rw [testBit_shifted hv]
          have hdis := cellShift_disjoint hiFirst hm hbyte hne ht
          have hnot : ¬(cellShift m k hiFirst j ≤ cellShift m k hiFirst i + t ∧
              cellShift m k hiFirst i + t < cellShift m k hiFirst j + k) := by omega
          simp [hnot]
        rw [← hbyte, getD_modify_self p hroom]
        simp only [UInt8.toNat_or, UInt8.toNat_ofNat', Nat.testBit_lor,
          Nat.testBit_mod_two_pow, hfree, Bool.and_false, Bool.or_false]
      · rw [← hbyte, modify_eq_self (not_lt.mp hroom)]
    · rw [getD_modify_of_ne p hbyte]
  · simp [ht]

theorem cellAt_modify_self (hm : 0 < m) (hmk : k * m = 8) (hv : v < 2 ^ k) {p : List UInt8}
    (hi : i / m < p.length) (hempty : cellAt m k hiFirst p i = 0) :
    cellAt m k hiFirst
      (p.modify (i / m) fun b => b ||| UInt8.ofNat (v <<< cellShift m k hiFirst i)) i = v := by
  refine Nat.eq_of_testBit_eq fun t => ?_
  have hzero := testBit_cellAt m k hiFirst p i t
  rw [hempty, Nat.zero_testBit] at hzero
  rw [testBit_cellAt]
  by_cases ht : t < k
  · have h8 := cellShift_add_lt hiFirst hm (i := i) ht
    rw [hmk] at h8
    simp only [ht, decide_true, Bool.true_and] at hzero
    rw [getD_modify_self p hi]
    simp only [ht, decide_true, Bool.true_and, UInt8.toNat_or, UInt8.toNat_ofNat',
      Nat.testBit_lor, Nat.testBit_mod_two_pow, ← hzero, Bool.false_or, testBit_shifted hv]
    simp [h8, ht]
  · have hhigh : v.testBit t = false :=
      Nat.testBit_lt_two_pow (hv.trans_le (Nat.pow_le_pow_right Nat.zero_lt_two (not_lt.mp ht)))
    simp [ht, hhigh]

variable {count : ℕ}

theorem cellAt_foldl (hm : 0 < m) (hmk : k * m = 8) (hvalue : ∀ i, value i < 2 ^ k) {n : ℕ}
    (hn : n ≤ count) (i : ℕ) :
    cellAt m k hiFirst ((List.range n).foldl
      (fun p i => p.modify (i / m) fun b => b ||| UInt8.ofNat (value i <<< cellShift m k hiFirst i))
      (List.replicate ((count + (m - 1)) / m) 0)) i = if i < n then value i else 0 := by
  induction n generalizing i with
  | zero =>
    have hbyte : (List.replicate ((count + (m - 1)) / m) (0 : UInt8)).getD (i / m) 0 = 0 := by
      rw [getD_eq_getElem?_getD, getElem?_replicate]
      split_ifs
      · rfl
      · rfl
    rw [range_zero, foldl_nil, cellAt, hbyte]
    simp
  | succ n ih =>
    have hlen := length_foldl_modify (m := m)
      (fun i b => b ||| UInt8.ofNat (value i <<< cellShift m k hiFirst i)) (List.range n)
      (List.replicate ((count + (m - 1)) / m) 0)
    rw [length_replicate] at hlen
    have hroom : n / m < (count + (m - 1)) / m := by
      rw [Nat.lt_iff_add_one_le, Nat.le_div_iff_mul_le hm]
      have hdiv := Nat.div_mul_le_self n m
      rw [Nat.add_mul, Nat.one_mul]
      omega
    rw [range_succ, foldl_append, foldl_cons, foldl_nil]
    by_cases hi : i = n
    · subst hi
      rw [cellAt_modify_self hm hmk (hvalue i) (by rw [hlen]; exact hroom)
        (by rw [ih (Nat.le_of_succ_le hn), if_neg (lt_irrefl i)]), if_pos (Nat.lt_succ_self i)]
    · rw [cellAt_modify_of_ne hm (hvalue n) hi, ih (Nat.le_of_succ_le hn)]
      by_cases hlt : i < n
      · rw [if_pos hlt, if_pos (Nat.lt_succ_of_lt hlt)]
      · rw [if_neg hlt, if_neg (by omega)]

theorem cellAt_packCells (hm : 0 < m) (hmk : k * m = 8) (hvalue : ∀ i, value i < 2 ^ k)
    (hi : i < count) :
    cellAt m k hiFirst (packCells m k hiFirst count value) i = value i := by
  rw [packCells, cellAt_foldl hm hmk hvalue le_rfl, if_pos hi]

theorem cellAt_append (hm : 0 < m) {p : List UInt8} (hi : i < count)
    (hp : p.length = (count + (m - 1)) / m) (rest : List UInt8) :
    cellAt m k hiFirst (p ++ rest) i = cellAt m k hiFirst p i := by
  have hroom : i / m < p.length := by
    rw [hp, Nat.lt_iff_add_one_le, Nat.le_div_iff_mul_le hm]
    have hdiv := Nat.div_mul_le_self i m
    rw [Nat.add_mul, Nat.one_mul]
    omega
  rw [cellAt, cellAt, getD_append _ _ _ _ hroom]

end Cells

end Support
