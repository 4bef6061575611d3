import Th8.Convert.Integer

/-!
# The integers that `Th8_ToWideInt` reads

A literal is decimal, has the prefix of its base, or has a leading zero in front of an
octal digit, and a sign may stand before it.  The digit loop reads the literals of the
wide integers, except for the smallest one: its magnitude is let through by a test that
only decimal digits can pass.
-/

namespace Th8

open Support

def letterBase (c : Byte) : Option ℕ :=
  if c = 0x78 ∨ c = 0x58 then some 16
  else if c = 0x6f ∨ c = 0x4f then some 8
  else if c = 0x62 ∨ c = 0x42 then some 2
  else none

/-- A literal of the number `w` in a base. -/
inductive IntLiteral : (base : ℕ) → Bytes → (w : ℕ) → Prop where
  | decimal {digits : Bytes} {w : ℕ} (hdigits : digits ≠ [])
      (hzero : ∀ d rest, digits = 0x30 :: d :: rest → isOctDig d = false)
      (hnum : numeral 10 0 digits = some w) : IntLiteral 10 digits w
  | prefixed {base : ℕ} {letter : Byte} {digits : Bytes} {w : ℕ}
      (hletter : letterBase letter = some base) (hdigits : digits ≠ [])
      (hnum : numeral base 0 digits = some w) : IntLiteral base (0x30 :: letter :: digits) w
  | octal {d : Byte} {rest : Bytes} {w : ℕ} (hd : isOctDig d = true)
      (hnum : numeral 8 0 (d :: rest) = some w) : IntLiteral 8 (0x30 :: d :: rest) w

inductive SignedText : Bytes → (neg : Bool) → Bytes → Prop where
  | minus (body : Bytes) : SignedText (0x2d :: body) true body
  | plus (body : Bytes) : SignedText (0x2b :: body) false body
  | bare (body : Bytes) : SignedText body false body

/-- The text is an integer literal of `v`, which is in the range of a wide integer. -/
def IsWideInt (z : Bytes) (v : ℤ) : Prop :=
  ∃ neg body base w, SignedText z neg body ∧ IntLiteral base body w ∧ v = signed neg w ∧
    -2 ^ 63 ≤ v ∧ v ≤ 2 ^ 63 - 1

def SmallestNotDecimal (z : Bytes) : Prop :=
  ∃ body base, z = 0x2d :: body ∧ base ≠ 10 ∧ IntLiteral base body (2 ^ 63)

/-! ## What the source detects -/

variable {base : ℕ}

theorem letterBase_gt {c : Byte} (h : letterBase c = some base) : 0x39 < c := by
  unfold letterBase at h
  split_ifs at h with h16 h8 h2
  · rcases h16 with rfl | rfl <;> decide
  · rcases h8 with rfl | rfl <;> decide
  · rcases h2 with rfl | rfl <;> decide

theorem isOctDig_iff {c : Byte} : isOctDig c = true ↔ 0x30 ≤ c ∧ c ≤ 0x37 := by
  simp [isOctDig]

theorem detectBase_letter {letter : Byte} (h : letterBase letter = some base) (rest : Bytes) :
    detectBase (0x30 :: letter :: rest) = (base, rest) := by
  unfold letterBase at h
  unfold detectBase
  split_ifs at h with h16 h8 h2
  · cases h
    simp [h16]
  · cases h
    simp [h16, h8]
  · cases h
    simp [h16, h8, h2]

variable {d : Byte}

theorem detectBase_digit (h : letterBase d = none) (rest : Bytes) :
    detectBase (0x30 :: d :: rest) =
      if isOctDig d = true then (8, d :: rest) else (10, 0x30 :: d :: rest) := by
  unfold letterBase at h
  split_ifs at h with h16 h8 h2
  simp [detectBase, h16, h8, h2, isOctDig_iff]

theorem letterBase_oct (h : isOctDig d = true) : letterBase d = none := by
  cases hletter : letterBase d with
  | none => rfl
  | some base =>
    have hgt := UInt8.lt_iff_toNat_lt.mp (letterBase_gt hletter)
    have hle := UInt8.le_iff_toNat_le.mp (isOctDig_iff.mp h).2
    exact absurd (Nat.lt_of_lt_of_le hgt hle) (by decide)

variable {w : ℕ}

theorem letterBase_none_of_decimal {rest : Bytes} (h : numeral 10 0 (0x30 :: d :: rest) = some w) :
    letterBase d = none := by
  cases hletter : letterBase d with
  | none => rfl
  | some base =>
    rw [numeral_ten_prefixed rest (letterBase_gt hletter)] at h
    cases h

variable {body : Bytes}

theorem detectBase_plain (h : ∀ d rest, body ≠ 0x30 :: d :: rest) :
    detectBase body = (10, body) := by
  unfold detectBase
  split
  · exact absurd rfl (h _ _)
  · rfl

theorem intLiteral_iff :
    IntLiteral base body w ↔
      ∃ digits, detectBase body = (base, digits) ∧ digits ≠ [] ∧
        numeral base 0 digits = some w := by
  constructor
  · intro h
    cases h with
    | decimal hdigits hzero hnum =>
      refine ⟨body, ?_, hdigits, hnum⟩
      by_cases hbody : ∃ d rest, body = 0x30 :: d :: rest
      · obtain ⟨d, rest, rfl⟩ := hbody
        rw [detectBase_digit (letterBase_none_of_decimal hnum), hzero d rest rfl]
        rfl
      · push Not at hbody
        exact detectBase_plain hbody
    | prefixed hletter hdigits hnum =>
      exact ⟨_, detectBase_letter hletter _, hdigits, hnum⟩
    | octal hd hnum =>
      refine ⟨_, ?_, by simp, hnum⟩
      rw [detectBase_digit (letterBase_oct hd), if_pos hd]
  · rintro ⟨digits, hdetect, hdigits, hnum⟩
    by_cases hbody : ∃ d rest, body = 0x30 :: d :: rest
    · obtain ⟨d, rest, rfl⟩ := hbody
      cases hletter : letterBase d with
      | some b =>
        rw [detectBase_letter hletter] at hdetect
        cases hdetect
        exact .prefixed hletter hdigits hnum
      | none =>
        rw [detectBase_digit hletter] at hdetect
        by_cases hd : isOctDig d = true
        · rw [if_pos hd] at hdetect
          cases hdetect
          exact .octal hd hnum
        · rw [if_neg hd] at hdetect
          cases hdetect
          refine .decimal hdigits (fun d' rest' heq => ?_) hnum
          cases heq
          simpa using hd
    · push Not at hbody
      rw [detectBase_plain hbody] at hdetect
      cases hdetect
      exact .decimal hdigits (fun d rest heq => absurd heq (hbody d rest)) hnum

theorem detectBase_cases (body : Bytes) :
    (detectBase body).1 = 10 ∨ (detectBase body).1 = 16 ∨ (detectBase body).1 = 8 ∨
      (detectBase body).1 = 2 := by
  unfold detectBase
  split
  · split_ifs <;> simp
  · simp

variable {z : Bytes} {neg : Bool}

theorem SignedText.takeSign_eq (hz : SignedText z neg body)
    (hsign : ∀ c rest, body = c :: rest → c ≠ 0x2d ∧ c ≠ 0x2b) :
    takeSign z = (neg, body) := by
  cases hz with
  | minus => rfl
  | plus => rfl
  | bare =>
    unfold takeSign
    split
    · exact absurd rfl (hsign _ _ rfl).1
    · exact absurd rfl (hsign _ _ rfl).2
    · rfl

theorem IntLiteral.takeSign_eq (hz : SignedText z neg body) (h : IntLiteral base body w) :
    takeSign z = (neg, body) := by
  apply hz.takeSign_eq
  rintro c rest rfl
  cases h with
  | decimal _ _ hnum =>
    rw [numeral] at hnum
    constructor
    · rintro rfl
      cases hnum
    · rintro rfl
      cases hnum
  | prefixed => exact ⟨by decide, by decide⟩
  | octal => exact ⟨by decide, by decide⟩

theorem signedText_takeSign (z : Bytes) : SignedText z (takeSign z).1 (takeSign z).2 := by
  unfold takeSign
  split
  · exact .minus _
  · exact .plus _
  · exact .bare _

variable {v : ℤ}

section

variable (hbase : base = 10 ∨ base = 16 ∨ base = 8 ∨ base = 2)

include hbase

theorem accumWide_smallest {val digit : ℕ} {rest : Bytes} {e : Failure} (hbig :
    int64Max < val * base + digit)
    (hdigit : digit < base) :
    (if neg ∧ rest = [] ∧ val = int64Max / base ∧
        digit = 2 ^ 63 - int64Max / base * base then Except.ok (-2 ^ 63) else .error e) = .ok v ↔
      ∃ w, numeral base (val * base + digit) rest = some w ∧ v = signed neg w ∧
        (w ≤ int64Max ∨ neg = true ∧ base = 10 ∧ w = 2 ^ 63) := by
  constructor
  · intro h
    split_ifs at h with hmin
    obtain ⟨hneg, rfl, hval, hlast⟩ := hmin
    have hten : base = 10 := by
      rcases hbase with rfl | rfl | rfl | rfl
      · rfl
      · omega
      · omega
      · omega
    subst hten
    refine ⟨2 ^ 63, ?_, ?_, .inr ⟨hneg, rfl, rfl⟩⟩
    · rw [numeral, hval, hlast]
      rfl
    · rw [hneg, ← Except.ok.inj h]
      rfl
  · rintro ⟨w, hnum, rfl, hw⟩
    have hge := numeral_ge (by omega) hnum
    obtain ⟨hneg, rfl, rfl⟩ := hw.resolve_left (by omega)
    have hmagnitude : val * 10 + digit = 2 ^ 63 := by
      unfold int64Max at hbig
      omega
    have hrest : rest = [] := by
      cases rest with
      | nil => rfl
      | cons d rest =>
        rw [numeral] at hnum
        cases hd : hexDigit d with
        | none => simp [hd] at hnum
        | some k =>
          simp only [hd, Option.ite_none_right_eq_some] at hnum
          have hmore := numeral_ge (by omega) hnum.2
          omega
    have hval : val = int64Max / 10 := by
      unfold int64Max
      omega
    rw [if_pos ⟨hneg, hrest, hval, by unfold int64Max; omega⟩, hneg]
    rfl

theorem accumWide_eq_ok_iff {expected : Failure} {val : ℕ} (hval : val ≤ int64Max) :
    accumWide expected neg base val z = .ok v ↔
      ∃ w, numeral base val z = some w ∧ v = signed neg w ∧
        (w ≤ int64Max ∨ neg = true ∧ base = 10 ∧ w = 2 ^ 63) := by
  have hpos : 0 < base := by omega
  induction z generalizing val with
  | nil =>
    simp only [accumWide, numeral, Except.ok.injEq, Option.some.injEq, exists_eq_left']
    exact ⟨fun h => ⟨h.symm, .inl hval⟩, fun h => h.1.symm⟩
  | cons c rest ih =>
    rw [accumWide, numeral]
    cases hc : hexDigit c with
    | none => simp
    | some digit =>
      by_cases hdigit : base ≤ digit
      · simp [hdigit, not_lt.mpr hdigit]
      simp only [if_neg hdigit, if_pos (not_le.mp hdigit)]
      by_cases hroom : (int64Max - digit) / base < val
      · have hbig : int64Max < val * base + digit := by
          rw [Nat.div_lt_iff_lt_mul hpos] at hroom
          omega
        rw [if_pos hroom, accumWide_smallest hbase hbig (not_le.mp hdigit)]
      · rw [if_neg hroom]
        rw [not_lt, Nat.le_div_iff_mul_le hpos] at hroom
        have hlt : digit ≤ int64Max := by
          have hten : (16 : ℕ) ≤ int64Max := by decide
          omega
        exact ih (by omega)

end

/-! ## What is read -/

theorem parseWideInt_eq_ok :
    parseWideInt z = .ok v ↔
      ∃ base w, IntLiteral base (takeSign z).2 w ∧ v = signed (takeSign z).1 w ∧
        (w ≤ int64Max ∨ (takeSign z).1 = true ∧ base = 10 ∧ w = 2 ^ 63) := by
  obtain ⟨base, digits, hdetect⟩ : ∃ base digits, detectBase (takeSign z).2 = (base, digits) :=
    ⟨_, _, rfl⟩
  have hcases : base = 10 ∨ base = 16 ∨ base = 8 ∨ base = 2 := by
    have hbase := detectBase_cases (takeSign z).2
    rwa [hdetect] at hbase
  unfold parseWideInt
  simp only [hdetect]
  by_cases hbody : (takeSign z).2 = []
  · rw [if_pos hbody]
    simp only [reduceCtorEq, false_iff]
    rintro ⟨base', w, hlit, -⟩
    rw [hbody] at hlit
    obtain ⟨digits', hdetect', hdigits', -⟩ := intLiteral_iff.mp hlit
    cases hdetect'
    exact hdigits' rfl
  rw [if_neg hbody]
  by_cases hdigits : digits = []
  · rw [if_pos hdigits]
    simp only [reduceCtorEq, false_iff]
    rintro ⟨base', w, hlit, -⟩
    obtain ⟨digits', hdetect', hdigits', -⟩ := intLiteral_iff.mp hlit
    rw [hdetect] at hdetect'
    cases hdetect'
    exact hdigits' hdigits
  rw [if_neg hdigits, accumWide_eq_ok_iff hcases (Nat.zero_le _)]
  constructor
  · rintro ⟨w, hnum, hv, hw⟩
    exact ⟨base, w, intLiteral_iff.mpr ⟨digits, hdetect, hdigits, hnum⟩, hv, hw⟩
  · rintro ⟨base', w, hlit, hv, hw⟩
    obtain ⟨digits', hdetect', -, hnum⟩ := intLiteral_iff.mp hlit
    rw [hdetect] at hdetect'
    cases hdetect'
    exact ⟨w, hnum, hv, hw⟩

theorem isWideInt_iff :
    IsWideInt z v ↔
      ∃ base w, IntLiteral base (takeSign z).2 w ∧ v = signed (takeSign z).1 w ∧
        (w ≤ int64Max ∨ (takeSign z).1 = true ∧ w = 2 ^ 63) := by
  have hrange : ∀ neg w, (-2 ^ 63 ≤ signed neg w ∧ signed neg w ≤ 2 ^ 63 - 1) ↔
      (w ≤ int64Max ∨ neg = true ∧ w = 2 ^ 63) := by
    intro neg w
    unfold int64Max
    cases neg with
    | false =>
      simp only [signed, Bool.false_eq_true, if_false, false_and, or_false]
      omega
    | true =>
      simp only [signed, if_true, true_and]
      omega
  constructor
  · rintro ⟨neg, body, base, w, hz, hlit, rfl, hlow, hhigh⟩
    rw [hlit.takeSign_eq hz]
    exact ⟨base, w, hlit, rfl, (hrange neg w).mp ⟨hlow, hhigh⟩⟩
  · rintro ⟨base, w, hlit, rfl, hw⟩
    exact ⟨_, _, base, w, signedText_takeSign z, hlit, rfl, (hrange _ w).mpr hw⟩

theorem IntLiteral.unique {base' w' : ℕ} (h : IntLiteral base body w)
    (h' : IntLiteral base' body w') : base = base' ∧ w = w' := by
  obtain ⟨digits, hdetect, -, hnum⟩ := intLiteral_iff.mp h
  obtain ⟨digits', hdetect', -, hnum'⟩ := intLiteral_iff.mp h'
  rw [hdetect] at hdetect'
  cases hdetect'
  rw [hnum] at hnum'
  exact ⟨rfl, Option.some.inj hnum'⟩

/-- Whatever was converted before, `Th8_ToWideInt` reads exactly the integer literals,
unless the text is the smallest number in a base other than ten. -/
theorem toWideInt_reads_iff (cache : ConvCache)
    (hcache : Reachable ConvCache.step ConvCache.empty cache) (z : Bytes) :
    (∀ v, cache.toWideInt z = .ok v ↔ IsWideInt z v) ↔ ¬SmallestNotDecimal z := by
  simp only [(ConvCache.coherent_of_reachable hcache).toWideInt_eq, parseWideInt_eq_ok,
    isWideInt_iff]
  constructor
  · rintro h ⟨body, base, rfl, hbase, hlit⟩
    obtain ⟨base', w, hlit', -, hw⟩ := (h (-2 ^ 63)).mpr ⟨base, 2 ^ 63, hlit, rfl, .inr ⟨rfl, rfl⟩⟩
    obtain ⟨rfl, rfl⟩ := hlit.unique hlit'
    rcases hw with hle | ⟨-, hten, -⟩
    · exact absurd hle (by decide)
    · exact hbase hten
  · intro h v
    constructor
    · rintro ⟨base, w, hlit, hv, hw⟩
      exact ⟨base, w, hlit, hv, hw.imp_right fun hmin => ⟨hmin.1, hmin.2.2⟩⟩
    · rintro ⟨base, w, hlit, hv, hw⟩
      refine ⟨base, w, hlit, hv, hw.imp_right ?_⟩
      rintro ⟨hneg, rfl⟩
      by_contra hten
      have hsign := signedText_takeSign z
      refine h ⟨(takeSign z).2, base, ?_, fun hbase => hten ⟨hneg, hbase, rfl⟩, hlit⟩
      generalize takeSign z = s at hsign hneg
      obtain ⟨neg, body⟩ := s
      cases hneg
      cases hsign
      rfl

theorem toWideInt_reads_cached :
    (∀ v, (ConvCache.empty.step (.toWideInt (ascii "-0x10"))).toWideInt (ascii "-0x10") =
        .ok v ↔ IsWideInt (ascii "-0x10") v) ↔ ¬SmallestNotDecimal (ascii "-0x10") :=
  toWideInt_reads_iff _ (.step _ .init trivial) _

/-- The smallest wide integer in hexadecimal is refused. -/
theorem not_toWideInt_reads_hex :
    ¬∀ cache, Reachable ConvCache.step ConvCache.empty cache →
      ∀ z v, cache.toWideInt z = .ok v ↔ IsWideInt z v := by
  intro h
  have hwide : IsWideInt (ascii "-0x8000000000000000") (-2 ^ 63) :=
    ⟨true, ascii "0x8000000000000000", 16, 2 ^ 63, .minus _,
      .prefixed (by decide) (by decide) (by decide), rfl, by norm_num, by norm_num⟩
  have hread := (h ConvCache.empty .init _ _).mpr hwide
  revert hread
  decide

end Th8
