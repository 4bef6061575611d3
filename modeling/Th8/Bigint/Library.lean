import Mathlib.Data.Int.Bitwise
import Th8.Convert.Integer
import Th8.Memory.SafeAlloc
import Th8.Support.TwosComplement

/-!
# Integers of any size

The multiple-precision library stands outside the source, so its functions are a
parameter, with what its documentation promises of them.  Integers enter and leave as
text: `th8BigintFromStr` reads it through a buffer of fixed size, and
`th8BigintToResult` writes it into one whose size it takes from the number of bits.
-/

namespace Th8.Bigint

open Support List Nat Int

/-! ## The library -/

/-- The functions of the library that the code calls.  An `mp_int` is the integer it
holds, and `none` is any result other than `MP_OKAY`. -/
structure MpLib where
  readRadix : Bytes → ℕ → Option ℤ
  toRadix : ℤ → ℕ → ℕ → Option Bytes
  neg : ℤ → Option ℤ
  abs : ℤ → Option ℤ
  complement : ℤ → Option ℤ
  add : ℤ → ℤ → Option ℤ
  sub : ℤ → ℤ → Option ℤ
  mul : ℤ → ℤ → Option ℤ
  div : ℤ → ℤ → Option ℤ
  mod : ℤ → ℤ → Option ℤ
  and : ℤ → ℤ → Option ℤ
  or : ℤ → ℤ → Option ℤ
  xor : ℤ → ℤ → Option ℤ
  mul2d : ℤ → ℤ → Option ℤ
  div2d : ℤ → ℤ → Option ℤ
  exptN : ℤ → ℤ → Option ℤ
  twoExpt : ℤ → Option ℤ
  cmp : ℤ → ℤ → Ordering
  isneg : ℤ → Bool
  iszero : ℤ → Bool
  countBits : ℤ → ℕ
  cntLsb : ℤ → ℕ
  ubinSize : ℤ → ℕ
  toUbin : ℤ → ℕ → Option Bytes
  fromUbin : Bytes → Option ℤ

def digitChar (d : ℕ) : Byte := UInt8.ofNat (0x30 + d)

def decimalDigits (n : ℕ) : Bytes :=
  if n = 0 then [0x30] else ((Nat.digits 10 n).map digitChar).reverse

def decimal (v : ℤ) : Bytes :=
  if v < 0 then 0x2d :: decimalDigits v.natAbs else decimalDigits v.natAbs

/-- What the documentation of the library promises when there is memory enough.
Nothing is promised of a negative exponent or shift. -/
structure MpLib.Exact (mp : MpLib) : Prop where
  readRadix : ∀ {z radix w}, z ≠ [] → numeral radix 0 z = some w →
    mp.readRadix z radix = some (w : ℤ)
  toRadix : ∀ {a maxlen}, (decimal a).length + 1 ≤ maxlen →
    mp.toRadix a maxlen 10 = some (decimal a)
  neg : ∀ a, mp.neg a = some (-a)
  abs : ∀ a, mp.abs a = some |a|
  complement : ∀ a, mp.complement a = some (Int.lnot a)
  add : ∀ a b, mp.add a b = some (a + b)
  sub : ∀ a b, mp.sub a b = some (a - b)
  mul : ∀ a b, mp.mul a b = some (a * b)
  div : ∀ {a b}, b ≠ 0 → mp.div a b = some (a.tdiv b)
  mod : ∀ {a b}, b ≠ 0 → mp.mod a b = some (a.fmod b)
  and : ∀ a b, mp.and a b = some (Int.land a b)
  or : ∀ a b, mp.or a b = some (Int.lor a b)
  xor : ∀ a b, mp.xor a b = some (Int.xor a b)
  mul2d : ∀ {a b}, 0 ≤ b → mp.mul2d a b = some (a * 2 ^ b.toNat)
  div2d : ∀ {a b}, 0 ≤ b → mp.div2d a b = some (a.tdiv (2 ^ b.toNat))
  exptN : ∀ {a b}, 0 ≤ b → mp.exptN a b = some (a ^ b.toNat)
  twoExpt : ∀ {b}, 0 ≤ b → mp.twoExpt b = some (2 ^ b.toNat)
  cmp : ∀ a b, mp.cmp a b = compare a b
  isneg : ∀ a, mp.isneg a = decide (a < 0)
  iszero : ∀ a, mp.iszero a = decide (a = 0)
  countBits : ∀ a, mp.countBits a = Nat.size a.natAbs
  cntLsb : ∀ {a}, a ≠ 0 → 2 ^ mp.cntLsb a ∣ a ∧ ¬ 2 ^ (mp.cntLsb a + 1) ∣ a
  ubinSize : ∀ a, mp.ubinSize a = (toBytes a.natAbs).length
  toUbin : ∀ {a maxlen}, (toBytes a.natAbs).length ≤ maxlen →
    mp.toUbin a maxlen = some (toBytes a.natAbs)
  fromUbin : ∀ z, mp.fromUbin z = some (ofBytes z : ℤ)

def fromStrDigits : ℕ := 512 - 1

def radixPrefix (p : Bytes) : ℕ × Bytes :=
  match p with
  | 0x30 :: c :: d :: rest =>
    if c = 0x78 ∨ c = 0x58 then (16, d :: rest)
    else if c = 0x6f ∨ c = 0x4f then (8, d :: rest)
    else if c = 0x62 ∨ c = 0x42 then (2, d :: rest)
    else (10, p)
  | _ => (10, p)

/-- `th8BigintFromStr`.  What does not fit into the buffer is left out. -/
def fromStr (mp : MpLib) (z : Bytes) : Option ℤ :=
  let p := takeSign (z.dropWhile fun c => c == 0x20 || c == 0x09)
  let q := radixPrefix p.2
  match mp.readRadix (q.2.take fromStrDigits) q.1 with
  | none => none
  | some a => if p.1 then mp.neg a else some a

/-- `th8BigintToResult`: the text that becomes the result. -/
def toResult (mp : MpLib) (a : ℤ) : Except Failure Bytes :=
  let size := mp.countBits a / 3 + 3
  match mp.toRadix a size 10 with
  | none => .error (.static "bigint conversion error")
  | some buf => .ok buf

/-- A result of the library other than `MP_OKAY` ends the function with a message. -/
def expect {α : Type} (e : Failure) (r : Option α) : Except Failure α :=
  match r with
  | none => .error e
  | some a => .ok a

@[simp] theorem expect_some {α : Type} (e : Failure) (a : α) :
    expect e (some a) = .ok a := rfl

/-- The number of low zero bits, looked for in `fuel` bits. -/
def trailingZeros : ℕ → ℕ → ℕ
  | 0, _ => 0
  | fuel + 1, m => if m % 2 = 0 then trailingZeros fuel (m / 2) + 1 else 0

theorem trailingZeros_spec {fuel m : ℕ} (hm : 0 < m) (hfuel : m < 2 ^ fuel) :
    2 ^ trailingZeros fuel m ∣ m ∧ ¬ 2 ^ (trailingZeros fuel m + 1) ∣ m := by
  induction fuel generalizing m with
  | zero => omega
  | succ fuel ih =>
    rw [trailingZeros]
    split_ifs with heven
    · obtain ⟨k, rfl⟩ : 2 ∣ m := dvd_of_mod_eq_zero heven
      rw [Nat.mul_div_cancel_left k (by norm_num), pow_succ' 2 (trailingZeros fuel k),
        pow_succ' 2 (trailingZeros fuel k + 1), mul_dvd_mul_iff_left (by norm_num),
        mul_dvd_mul_iff_left (by norm_num)]
      exact ih (by omega) (by rw [pow_succ] at hfuel; omega)
    · exact ⟨one_dvd m, fun h => heven (mod_eq_zero_of_dvd (by simpa using h))⟩

/-- An exact library, which refuses negative exponents and shifts and division by
zero. -/
def referenceLib : MpLib where
  readRadix z radix := if z = [] then none else (numeral radix 0 z).map fun w => (w : ℤ)
  toRadix a maxlen _ := if (decimal a).length + 1 ≤ maxlen then some (decimal a) else none
  neg a := some (-a)
  abs a := some |a|
  complement a := some (Int.lnot a)
  add a b := some (a + b)
  sub a b := some (a - b)
  mul a b := some (a * b)
  div a b := if b = 0 then none else some (a.tdiv b)
  mod a b := if b = 0 then none else some (a.fmod b)
  and a b := some (Int.land a b)
  or a b := some (Int.lor a b)
  xor a b := some (Int.xor a b)
  mul2d a b := if b < 0 then none else some (a * 2 ^ b.toNat)
  div2d a b := if b < 0 then none else some (a.tdiv (2 ^ b.toNat))
  exptN a b := if b < 0 then none else some (a ^ b.toNat)
  twoExpt b := if b < 0 then none else some (2 ^ b.toNat)
  cmp a b := compare a b
  isneg a := decide (a < 0)
  iszero a := decide (a = 0)
  countBits a := Nat.size a.natAbs
  cntLsb a := trailingZeros (Nat.size a.natAbs) a.natAbs
  ubinSize a := (toBytes a.natAbs).length
  toUbin a maxlen :=
    if (toBytes a.natAbs).length ≤ maxlen then some (toBytes a.natAbs) else none
  fromUbin z := some (ofBytes z : ℤ)

theorem referenceLib_exact : referenceLib.Exact where
  readRadix hz h := by simp [referenceLib, hz, h]
  toRadix h := if_pos h
  neg _ := rfl
  abs _ := rfl
  complement _ := rfl
  add _ _ := rfl
  sub _ _ := rfl
  mul _ _ := rfl
  div h := if_neg h
  mod h := if_neg h
  and _ _ := rfl
  or _ _ := rfl
  xor _ _ := rfl
  mul2d h := if_neg (not_lt.mpr h)
  div2d h := if_neg (not_lt.mpr h)
  exptN h := if_neg (not_lt.mpr h)
  twoExpt h := if_neg (not_lt.mpr h)
  cmp _ _ := rfl
  isneg _ := rfl
  iszero _ := rfl
  countBits _ := rfl
  cntLsb {a} ha := by
    have hspec := trailingZeros_spec (natAbs_pos.mpr ha) (lt_size_self a.natAbs)
    refine ⟨?_, fun h => hspec.2 ?_⟩
    · exact natCast_dvd.mpr hspec.1 |> (by exact_mod_cast ·)
    · exact natCast_dvd.mp (by exact_mod_cast h)
  ubinSize _ := rfl
  toUbin h := if_pos h
  fromUbin _ := rfl

/-! ## Integers as text -/

theorem hexDigit_digitChar {d : ℕ} (hd : d < 10) : hexDigit (digitChar d) = some d := by
  interval_cases d <;> decide

theorem numeral_append (base val : ℕ) (xs ys : Bytes) :
    numeral base val (xs ++ ys) = (numeral base val xs).bind fun w => numeral base w ys := by
  induction xs generalizing val with
  | nil => rfl
  | cons c xs ih =>
    rw [cons_append, numeral, numeral]
    cases hexDigit c with
    | none => rfl
    | some digit =>
      dsimp only
      split_ifs
      · exact ih _
      · rfl

theorem numeral_digitChars {ds : List ℕ} (hds : ∀ d ∈ ds, d < 10) :
    numeral 10 0 (ds.map digitChar).reverse = some (Nat.ofDigits 10 ds) := by
  induction ds with
  | nil => rfl
  | cons d ds ih =>
    have hd : d < 10 := hds d mem_cons_self
    rw [map_cons, reverse_cons, numeral_append, ih fun x hx => hds x (mem_cons_of_mem d hx)]
    simp only [Option.bind_some, numeral, hexDigit_digitChar hd, hd, if_true, ofDigits_cons]
    congr 1
    ring

theorem length_decimalDigits_pos (n : ℕ) : 0 < (decimalDigits n).length := by
  rw [decimalDigits]
  split_ifs with hn
  · exact one_pos
  · rw [length_reverse, length_map]
    exact length_pos_iff.mpr (digits_ne_nil_iff_ne_zero.mpr hn)

theorem length_decimalDigits_le {n k : ℕ} (hk : 0 < k) :
    (decimalDigits n).length ≤ k ↔ n < 10 ^ k := by
  rw [decimalDigits]
  split_ifs with hn
  · subst hn
    exact iff_of_true hk (by positivity)
  · rw [length_reverse, length_map]
    exact digits_length_le_iff (by norm_num) n

theorem numeral_take_decimalDigits (n : ℕ) {k : ℕ} (hk : 0 < k) :
    numeral 10 0 ((decimalDigits n).take k) = some (n / 10 ^ ((decimalDigits n).length - k)) := by
  rw [decimalDigits]
  split_ifs with hn
  · subst hn
    obtain ⟨j, rfl⟩ := exists_eq_succ_of_ne_zero hk.ne'
    simp [numeral]
    decide
  · rw [take_reverse, length_reverse, length_map, ← map_drop,
      self_div_pow_eq_ofDigits_drop _ _ (by norm_num)]
    exact numeral_digitChars fun d hd =>
      digits_lt_base (by norm_num) (mem_of_mem_drop hd)

theorem decimalDigits_head {n : ℕ} {c : Byte} {rest : Bytes} (h : decimalDigits n = c :: rest) :
    0x30 ≤ c ∧ c ≤ 0x39 ∧ (c = 0x30 → rest = []) := by
  rw [decimalDigits] at h
  split_ifs at h with hn
  · cases h
    decide
  · have hne : Nat.digits 10 n ≠ [] := digits_ne_nil_iff_ne_zero.mpr hn
    have hlast : (Nat.digits 10 n).getLast hne ≠ 0 := getLast_digit_ne_zero 10 hn
    have hlt : (Nat.digits 10 n).getLast hne < 10 := digits_lt_base (by norm_num) (getLast_mem hne)
    have hc : c = digitChar ((Nat.digits 10 n).getLast hne) := by
      have hhead := congrArg List.head? h
      rw [head?_reverse, getLast?_map, getLast?_eq_getLast_of_ne_nil hne] at hhead
      exact (Option.some.inj hhead).symm
    subst hc
    clear h
    generalize (Nat.digits 10 n).getLast hne = d at hlast hlt
    interval_cases d
    all_goals first
      | exact absurd rfl hlast
      | exact ⟨by decide, by decide, fun h => absurd h (by decide)⟩

theorem radixPrefix_decimalDigits (n : ℕ) :
    radixPrefix (decimalDigits n) = (10, decimalDigits n) := by
  rcases hz : decimalDigits n with _ | ⟨c, _ | ⟨d, _ | ⟨e, rest⟩⟩⟩
  · rfl
  · simp [radixPrefix]
  · simp [radixPrefix]
  · have hc : c ≠ 0x30 := fun hc => by simpa using (decimalDigits_head hz).2.2 hc
    simp [radixPrefix, hc]

theorem takeSign_decimal (v : ℤ) :
    takeSign ((decimal v).dropWhile fun c => c == 0x20 || c == 0x09) =
      (decide (v < 0), decimalDigits v.natAbs) := by
  rw [decimal]
  split_ifs with hv
  · simp [hv, takeSign]
  · have hpos := length_decimalDigits_pos v.natAbs
    rcases hz : decimalDigits v.natAbs with _ | ⟨c, rest⟩
    · rw [hz] at hpos
      exact absurd hpos (lt_irrefl 0)
    · obtain ⟨hlo, hhi, -⟩ := decimalDigits_head hz
      have h1 : c ≠ 0x20 := by rintro rfl; exact absurd hlo (by decide)
      have h2 : c ≠ 0x09 := by rintro rfl; exact absurd hlo (by decide)
      have h3 : c ≠ 0x2d := by rintro rfl; exact absurd hlo (by decide)
      have h4 : c ≠ 0x2b := by rintro rfl; exact absurd hlo (by decide)
      simp [h1, h2, takeSign, h3, h4, hv]

theorem decimalDigits_injective : Function.Injective decimalDigits := by
  intro m n h
  have hread (k : ℕ) : numeral 10 0 (decimalDigits k) = some k := by
    have := numeral_take_decimalDigits k (length_decimalDigits_pos k)
    simpa using this
  have := hread m
  rw [h, hread n] at this
  exact (Option.some.inj this).symm

theorem decimal_injective : Function.Injective decimal := by
  intro a b h
  have ha := takeSign_decimal a
  rw [h, takeSign_decimal b] at ha
  obtain ⟨hsign, hdigits⟩ := Prod.mk.inj ha
  have habs := decimalDigits_injective hdigits
  have hneg : b < 0 ↔ a < 0 := decide_eq_decide.mp hsign
  omega

theorem decimal_zero : decimal 0 = [0x30] := by decide

/-- The integer of the digits that fit into the buffer of `th8BigintFromStr`. -/
def leadingDigits (v : ℤ) : ℤ :=
  v.tdiv (10 ^ ((decimalDigits v.natAbs).length - fromStrDigits))

theorem fromStr_decimal {mp : MpLib} (hmp : mp.Exact) (v : ℤ) :
    fromStr mp (decimal v) = some (leadingDigits v) := by
  have hdigits := numeral_take_decimalDigits v.natAbs (k := fromStrDigits) (by decide)
  have hne : (decimalDigits v.natAbs).take fromStrDigits ≠ [] := by
    have hpos := length_decimalDigits_pos v.natAbs
    rw [← length_pos_iff, length_take]
    exact lt_min (by decide) hpos
  rw [fromStr, takeSign_decimal, radixPrefix_decimalDigits]
  rw [hmp.readRadix hne hdigits, leadingDigits]
  by_cases hv : v < 0
  · simp only [hv, decide_true, if_true, hmp.neg]
    obtain ⟨m, rfl⟩ : ∃ m : ℕ, v = -m := ⟨v.natAbs, by omega⟩
    rw [Int.neg_tdiv, Int.natAbs_neg, Int.natAbs_natCast]
    push_cast
    rw [tdiv_eq_ediv_of_nonneg (by positivity)]
  · simp only [hv, decide_false, Bool.false_eq_true, if_false]
    obtain ⟨m, rfl⟩ : ∃ m : ℕ, v = m := ⟨v.natAbs, by omega⟩
    rw [Int.natAbs_natCast]
    push_cast
    rw [tdiv_eq_ediv_of_nonneg (by positivity)]

theorem leadingDigits_eq_self {v : ℤ} : leadingDigits v = v ↔ v.natAbs < 10 ^ fromStrDigits := by
  rw [← length_decimalDigits_le (by decide), leadingDigits]
  constructor
  · intro h
    by_contra hlen
    obtain ⟨k, hk⟩ : ∃ k, (decimalDigits v.natAbs).length - fromStrDigits = k + 1 :=
      ⟨(decimalDigits v.natAbs).length - fromStrDigits - 1, by omega⟩
    have hv : v ≠ 0 := by
      rintro rfl
      exact hlen (by decide)
    have habs := congrArg Int.natAbs h
    rw [hk, natAbs_tdiv, natAbs_pow] at habs
    exact absurd habs (Nat.div_lt_self (natAbs_pos.mpr hv) (one_lt_pow (by omega) (by decide))).ne
  · intro h
    rw [Nat.sub_eq_zero_of_le h, pow_zero, Int.tdiv_one]

theorem natAbs_leadingDigits_lt (v : ℤ) : (leadingDigits v).natAbs < 10 ^ fromStrDigits := by
  have hlt : v.natAbs < 10 ^ (decimalDigits v.natAbs).length :=
    (length_decimalDigits_le (length_decimalDigits_pos _)).mp le_rfl
  rw [leadingDigits, natAbs_tdiv, natAbs_pow]
  refine (div_lt_iff_lt_mul (by positivity)).mpr ?_
  rw [show Int.natAbs 10 = 10 from rfl, ← pow_add]
  exact hlt.trans_le (Nat.pow_le_pow_right (by norm_num) (by omega))

theorem leadingDigits_neg_iff {v : ℤ} (h : leadingDigits v < 0) : v < 0 := by
  by_contra hv
  exact absurd h (not_lt.mpr (Int.tdiv_nonneg (not_lt.mp hv) (by positivity)))

theorem length_decimal_le (a : ℤ) : (decimal a).length + 1 ≤ Nat.size a.natAbs / 3 + 3 := by
  have hdigits : (decimalDigits a.natAbs).length ≤ Nat.size a.natAbs / 3 + 1 := by
    rw [length_decimalDigits_le (succ_pos _)]
    calc a.natAbs < 2 ^ Nat.size a.natAbs := lt_size_self _
      _ ≤ 2 ^ (3 * (Nat.size a.natAbs / 3 + 1)) :=
        Nat.pow_le_pow_right (by norm_num) (by omega)
      _ = 8 ^ (Nat.size a.natAbs / 3 + 1) := by rw [pow_mul]; rfl
      _ ≤ 10 ^ (Nat.size a.natAbs / 3 + 1) := Nat.pow_le_pow_left (by norm_num) _
  rw [decimal]
  split_ifs
  · rw [length_cons]
    omega
  · omega

theorem toResult_eq {mp : MpLib} (hmp : mp.Exact) (a : ℤ) : toResult mp a = .ok (decimal a) := by
  rw [toResult, hmp.countBits, hmp.toRadix (length_decimal_le a)]

end Th8.Bigint
