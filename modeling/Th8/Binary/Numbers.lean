import Th8.Binary.Acceptance
import Th8.Convert.WideLiterals

/-!
# The integers of `binary`

What integer an argument of `binary format` stands for, and which text `binary scan` assigns
for it.  Arguments beyond 64 bits keep their lowest 64 bits for the integer specifiers; `j` and
`J` keep the integer as it is.
-/

namespace Th8

open Support List Int
open Bigint (MpLib)

namespace Binary

variable {env : Env} {t : Token}

/-- The integer that is read from an argument: by `Th8_ToWideInt`, or by the library where
the argument is beyond 64 bits. -/
def ReadsAs (env : Env) (z : Bytes) (v : ℤ) : Prop :=
  match parseWideInt z with
  | .ok w => v = w
  | .error _ => env.bBigint = true ∧ Bigint.fromStr env.mp z = some v

/-! ## The lowest 64 bits -/

theorem land_mask (k : ℕ) (v : ℤ) : Int.land v ((2 ^ k - 1 : ℕ) : ℤ) = v % 2 ^ k := by
  rcases v with m | m
  · have hand : Int.land (Int.ofNat m) ((2 ^ k - 1 : ℕ) : ℤ) = ((m &&& (2 ^ k - 1) : ℕ) : ℤ) := rfl
    rw [hand, Nat.and_two_pow_sub_one_eq_mod]
    simp
  · have hldiff : Int.land (Int.negSucc m) ((2 ^ k - 1 : ℕ) : ℤ) =
        ((Nat.ldiff (2 ^ k - 1) m : ℕ) : ℤ) := rfl
    have hlt : m % 2 ^ k < 2 ^ k := Nat.mod_lt _ (by positivity)
    have hbits : Nat.ldiff (2 ^ k - 1) m = 2 ^ k - (m % 2 ^ k + 1) := by
      refine Nat.eq_of_testBit_eq fun i => ?_
      rw [Nat.testBit_ldiff, Nat.testBit_two_pow_sub_one, Nat.testBit_two_pow_sub_succ hlt,
        Nat.testBit_mod_two_pow]
      by_cases hi : i < k
      · simp [hi]
      · simp [hi]
    have hcast : ((m % 2 ^ k : ℕ) : ℤ) = (m : ℤ) % 2 ^ k := by push_cast; rfl
    rw [hldiff, hbits, negSucc_emod _ (by positivity), ← hcast]
    push_cast [Nat.cast_sub hlt]
    ring

variable {z : Bytes} {v : ℤ}

theorem accumWide_nonneg {expected : Failure} {base val : ℕ}
    (h : accumWide expected false base val z = .ok v) : 0 ≤ v := by
  induction z generalizing val with
  | nil =>
    rw [← Except.ok.inj h]
    exact natCast_nonneg _
  | cons c rest ih =>
    rw [accumWide] at h
    rcases hc : hexDigit c with _ | digit
    · rw [hc] at h
      cases h
    · rw [hc] at h
      dsimp only at h
      split_ifs at h with hdigit hroom hmin
      · exact absurd hmin.1 id
      · exact ih h

variable {w : ℤ}

theorem eq_of_parseWideInt_nonneg (hv : 0 ≤ v) (h : parseWideInt (Bigint.decimal v) = .ok w) :
    w = v := by
  by_cases hfits : v.natAbs < 2 ^ 63
  · rw [Bigint.parseWideInt_decimal hfits] at h
    exact (Except.ok.inj h).symm
  · have hmin := Bigint.eq_of_parseWideInt_decimal (not_lt.mp hfits) h
    rw [Bigint.parseWideInt_decimal_eq] at h
    have hsign : decide (v < 0) = false := decide_eq_false (not_lt.mpr hv)
    rw [hsign] at h
    have hnonneg := accumWide_nonneg h
    rw [hmin] at hnonneg
    exact absurd hnonneg (by norm_num)

theorem fromStr_mask (hmp : env.mp.Exact) :
    Bigint.fromStr env.mp (ascii "18446744073709551615") = some ((2 ^ 64 - 1 : ℕ) : ℤ) := by
  have hdecimal : ascii "18446744073709551615" = Bigint.decimal ((2 ^ 64 - 1 : ℕ) : ℤ) := by
    decide
  rw [hdecimal, Bigint.fromStr_decimal hmp, Bigint.leadingDigits_eq_self.mpr (by decide +kernel)]

theorem parseWideInt_decimal_nonneg (hv : 0 ≤ v) :
    parseWideInt (Bigint.decimal v) = .ok w ↔ v < 2 ^ 63 ∧ w = v := by
  constructor
  · intro h
    have hwv := eq_of_parseWideInt_nonneg hv h
    refine ⟨?_, hwv⟩
    by_contra hwide
    have hmin := Bigint.eq_of_parseWideInt_decimal (by omega) h
    omega
  · rintro ⟨hlt, rfl⟩
    exact Bigint.parseWideInt_decimal (by omega)

theorem parseBigint_eq (hmp : env.mp.Exact) {u : ℤ} (h : Bigint.fromStr env.mp z = some u) :
    parseBigint env z = parseWideInt (Bigint.decimal (u % 2 ^ 64)) := by
  rw [parseBigint, Bigint.bigintArith, fromStr_mask hmp, h]
  simp only [Bigint.expect_some, ok_bind, Bigint.arithSwitch, hmp.and, Bigint.arithResult,
    Bigint.toResult_eq hmp, land_mask]

theorem parseBigint_eq_ok (hmp : env.mp.Exact) : parseBigint env z = .ok w ↔
    ∃ u, Bigint.fromStr env.mp z = some u ∧ u % 2 ^ 64 < 2 ^ 63 ∧ w = u % 2 ^ 64 := by
  cases hread : Bigint.fromStr env.mp z with
  | none => simp [parseBigint, Bigint.bigintArith, hread, Bigint.expect]
  | some u =>
    rw [parseBigint_eq hmp hread, parseWideInt_decimal_nonneg (emod_nonneg _ (by norm_num))]
    simp

theorem parseTrunc_ok (hmp : env.mp.Exact) (h : (parseTrunc env z).result = .ok w) :
    ∃ v, ReadsAs env z v ∧ w % 2 ^ 64 = v % 2 ^ 64 := by
  rw [parseTrunc] at h
  rcases hparse : parseWideInt z with e | v
  · rw [hparse] at h
    split_ifs at h with hbig
    · obtain ⟨-, -, h⟩ := Traced.bind_eq_ok.mp h
      rcases htrunc : parseBigint env z with e' | w'
      · rw [htrunc] at h
        cases h
      · rw [htrunc] at h
        cases h
        obtain ⟨v, hread, -, rfl⟩ := (parseBigint_eq_ok hmp).mp htrunc
        refine ⟨v, ?_, emod_emod_of_dvd v (dvd_refl _)⟩
        rw [ReadsAs, hparse]
        exact ⟨(Bool.and_eq_true_iff.mp hbig).1, hread⟩
    · cases h
  · rw [hparse] at h
    cases h
    refine ⟨w, ?_, rfl⟩
    rw [ReadsAs, hparse]

theorem wrap_of_emod {b : ℕ} (hb : b ≤ 64) (h : w % 2 ^ 64 = v % 2 ^ 64) : wrap b w = wrap b v := by
  have hdvd : (2 : ℤ) ^ b ∣ 2 ^ 64 := pow_dvd_pow 2 hb
  have hmod : w % 2 ^ b = v % 2 ^ b := by
    rw [← emod_emod_of_dvd w hdvd, h, emod_emod_of_dvd v hdvd]
  have hcast : ((2 ^ b : ℕ) : ℤ) = 2 ^ b := by push_cast; rfl
  rw [wrap, wrap, bmod_def, bmod_def, hcast, hmod]

/-! ## Integers of any width -/

/-- The integer that `j` and `J` read from an argument. -/
def FieldInteger (env : Env) (z : Bytes) (v : ℤ) : Prop :=
  if env.bBigint then Bigint.fromStr env.mp z = some v else parseWideInt z = .ok v

theorem signByte_iff (hz : z ≠ []) :
    z.headD 0 &&& 0x80 ≠ 0 ↔ 2 ^ (8 * z.length) ≤ 2 * ofBytes z := by
  obtain ⟨c, rest, rfl⟩ := exists_cons_of_ne_nil hz
  rw [← signBit_iff]
  exact Bigint.signBit_and c

theorem readWide_eq (hz : z ≠ []) (h8 : z.length ≤ 8) (bBigEndian : Bool) :
    readWide bBigEndian (Bigint.inOrder bBigEndian z) = twosValue (8 * z.length) (ofBytes z) := by
  have horder : (if bBigEndian then Bigint.inOrder bBigEndian z
      else (Bigint.inOrder bBigEndian z).reverse) = z := by
    rcases bBigEndian with _ | _
    · exact reverse_reverse z
    · rfl
  have hlt := ofBytes_lt z
  have hpow : 256 ^ z.length = 2 ^ (8 * z.length) := by rw [pow_mul]; rfl
  have hfull : 256 ^ (8 - z.length + z.length) = 2 ^ 64 := by
    rw [Nat.sub_add_cancel h8, show 256 = 2 ^ 8 from rfl, ← pow_mul]
  have hle : 2 ^ (8 * z.length) ≤ 2 ^ 64 := Nat.pow_le_pow_right (by decide) (by omega)
  rw [readWide]
  simp only [horder]
  rw [signExtend_eq_twosValue, loadBe_eq_ofBytes]
  by_cases hsign : z.headD 0 &&& 0x80 ≠ 0
  · have hhigh := (signByte_iff hz).mp hsign
    have hones := ofBytes_ones_append (8 - z.length) z
    rw [hfull, hpow] at hones
    rw [hpow] at hlt
    rw [if_pos hsign, Nat.mod_eq_of_lt (by omega), twosValue, twosValue, if_pos (by omega),
      if_pos hhigh]
    have hcast := congrArg (fun n : ℕ => (n : ℤ)) hones
    push_cast at hcast
    omega
  · have hlow : ¬2 ^ (8 * z.length) ≤ 2 * ofBytes z := fun h => hsign ((signByte_iff hz).mpr h)
    rw [if_neg hsign, ofBytes_replicate_append, Nat.mod_eq_of_lt (by omega), twosValue,
      twosValue, if_neg (by omega), if_neg hlow]

variable {n : ℕ}

theorem wideField_ok (h0 : n ≠ 0) (h8 : n ≤ 8) (hv : TwosRange 64 v) (h : wideField n v = .ok z) :
    z = storeBe n (toUnsigned v) ∧ TwosRange (8 * n) v := by
  obtain ⟨m, hm⟩ : ∃ m, 8 = m + n := ⟨8 - n, by omega⟩
  have hdrop := drop_storeBe m n (toUnsigned v)
  rw [← hm] at hdrop
  have hwidth : 8 - n = m := by omega
  rw [wideField, hwidth] at h
  split_ifs at h with hwide hneg hrange
  · have hn : n = 8 := by omega
    subst hn
    cases h
    exact ⟨rfl, hv⟩
  · have hn : n = 8 := by omega
    subst hn
    cases h
    exact ⟨rfl, hv⟩
  · cases h
    refine ⟨hdrop, ?_⟩
    have hpow : (2 : ℤ) ^ (8 * n) = 2 * 2 ^ (n * 8 - 1) := by
      rw [← pow_succ', Nat.mul_comm 8 n]
      congr 1
      omega
    rw [TwosRange, hpow]
    omega

theorem detectBase_bounds (body : Bytes) :
    0 < (detectBase body).1 ∧ (detectBase body).1 ≤ int64Max := by
  have hcases : (detectBase body).1 ∈ [2, 8, 10, 16] := by
    rw [detectBase.eq_def]
    split
    · split_ifs <;> simp
    · simp
  revert hcases
  generalize (detectBase body).1 = base
  simp only [mem_cons, not_mem_nil, or_false]
  rintro (rfl | rfl | rfl | rfl) <;> decide

theorem twosRange_of_parseWideInt (h : parseWideInt z = .ok v) : TwosRange 64 v := by
  by_cases hmin : v = -2 ^ 63
  · rw [hmin]
    decide
  · have hbound : v.natAbs ≤ int64Max := by
      rw [parseWideInt] at h
      dsimp only at h
      split_ifs at h
      have hbase := detectBase_bounds (takeSign z).2
      exact Bigint.accumWide_bounded hbase.1 hbase.2 (Nat.zero_le _) h hmin
    rw [int64Max] at hbound
    rw [TwosRange]
    omega

theorem twosValue_toUnsigned (h0 : n ≠ 0) (h8 : n ≤ 8) (v : ℤ) :
    twosValue (8 * n) (toUnsigned v % 2 ^ (8 * n)) = wrap (8 * n) v := by
  rw [← signExtend_toUnsigned (Nat.pos_of_ne_zero h0) h8 v]
  obtain ⟨bits, hbits⟩ : ∃ bits, 8 * n = bits + 1 := ⟨8 * n - 1, by omega⟩
  rw [hbits, signExtend_eq_twosValue, Nat.mod_mod]

theorem bigintText_bigintField (hmp : env.mp.Exact) {zArg : Bytes} (h0 : n ≠ 0) (hlen : n ≤ lenMask)
    (hnarrow : env.bBigint = false → n ≤ 8) (h : bigintField env t n zArg = .ok z) :
    ∃ v, FieldInteger env zArg v ∧ bigintText env t z = .ok (Bigint.decimal v) := by
  rw [bigintField] at h
  rw [bigintText]
  split_ifs at h ⊢ with hbig hempty hlong
  · have hsmall : n < 2 ^ 28 := hlen.trans_lt (by decide)
    have hcast : Bigint.castBytes n = n := Nat.mod_eq_of_lt (by omega)
    rcases hread : Bigint.fromStr env.mp zArg with _ | v
    · rw [Bigint.toTwosComplement, if_neg h0, hread] at h
      cases h
    · rw [Bigint.toTwosComplement_of_fromStr hmp (by omega) (by omega) hread] at h
      split_ifs at h with hrange
      cases h
      refine ⟨v, by rw [FieldInteger, if_pos hbig]; exact hread, ?_⟩
      rw [Bigint.fromTwosComplement_padded hmp (by omega) (by omega) hrange, if_pos hsmall]
  · have hzero : z.length = n := length_wideBytes h
    omega
  · have hzero : z.length = n := length_wideBytes h
    exact absurd (hnarrow (by simpa using hbig)) (by omega)
  · have h8 := hnarrow (by simpa using hbig)
    obtain ⟨v, hparse, h⟩ := bind_eq_ok.mp h
    obtain ⟨zBuf, hfield, hz⟩ := map_eq_ok.mp h
    obtain ⟨hstore, hrange⟩ := wideField_ok h0 h8 (twosRange_of_parseWideInt hparse) hfield
    have horder : z = Bigint.inOrder (t.op.eOrder == .big) zBuf := by
      rw [← hz, Bigint.inOrder]
    have hbuf : zBuf.length = n := by rw [hstore, length_storeBe]
    have hne : zBuf ≠ [] := ne_nil_of_length_pos (by omega)
    refine ⟨v, by rw [FieldInteger, if_neg hbig]; exact hparse, ?_⟩
    rw [horder, readWide_eq hne (by omega), hbuf, hstore, ← loadBe_eq_ofBytes, loadBe_storeBe,
      twosValue_toUnsigned h0 h8, wrap_eq_self hrange]
    rfl

/-! ## The lowest bits of an argument -/

variable {op : OpDef}

/-- The text is an integer literal of `v`, of any size. -/
def IsInteger (z : Bytes) (v : ℤ) : Prop :=
  ∃ base w, IntLiteral base (takeSign z).2 w ∧ v = signed (takeSign z).1 w

/-- The lowest `n` bytes of the two's complement of an integer. -/
def lowBytes (eOrder : Order) (n : ℕ) (v : ℤ) : Bytes :=
  let z := (List.range n).map fun k => UInt8.ofNat (v / 2 ^ (8 * k) % 256).toNat
  if eOrder = .big then z.reverse else z

/-- `Th8_ToWideInt` reads the text, or `th8BigintFromStr` reads an integer beyond 63 bits whose
bit 63 is clear and whose lowest bits are right. -/
def KeepsLowBits (mp : MpLib) (op : OpDef) (z : Bytes) (v : ℤ) : Prop :=
  parseWideInt z = .ok v ∨ ∃ u, Bigint.fromStr mp z = some u ∧ 2 ^ 63 ≤ u.natAbs ∧
    u % 2 ^ 64 < 2 ^ 63 ∧ u % 2 ^ (8 * op.nWidth) = v % 2 ^ (8 * op.nWidth)

theorem emod_ediv_emod (v : ℤ) {n k : ℕ} (hk : k < n) :
    v % 2 ^ (8 * n) / 2 ^ (8 * k) % 256 = v / 2 ^ (8 * k) % 256 := by
  obtain ⟨j, rfl⟩ : ∃ j, n = k + 1 + j := ⟨n - k - 1, by omega⟩
  have hpow : (2 : ℤ) ^ (8 * (k + 1 + j)) = 2 ^ (8 * k) * (256 * 2 ^ (8 * j)) := by
    rw [Nat.mul_add, Nat.mul_add, pow_add, pow_add]
    ring
  rw [emod_def v, hpow, mul_assoc, sub_mul_ediv_left _ _ (by positivity), mul_assoc,
    sub_mul_emod_self_left]

theorem intBytes_eq_lowBytes (hw : IntWidth op.nWidth) (v : ℤ) :
    intBytes op v = lowBytes op.eOrder op.nWidth v := by
  have hlow (n : ℕ) (hn : n ≤ 8) : storeLe n (toUnsigned v) =
      (List.range n).map fun k => UInt8.ofNat (v / 2 ^ (8 * k) % 256).toNat := by
    refine map_congr_left fun k hk => ?_
    have hk8 : k < 8 := (mem_range.mp hk).trans_le hn
    have hnonneg : 0 ≤ v % 2 ^ 64 := emod_nonneg v (by norm_num)
    obtain ⟨n, hn⟩ := eq_ofNat_of_zero_le hnonneg
    rw [← emod_ediv_emod v hk8, toUnsigned, Nat.shiftRight_eq_div_pow, hn, toNat_natCast,
      ← UInt8.ofNat_mod_size]
    congr 1
  obtain ⟨letter, kind, nWidth, eOrder, bStarFmt, bStarScn⟩ := op
  rcases hw with h | h | h | h
  · obtain rfl : nWidth = 1 := h
    cases eOrder <;> exact hlow 1 (by decide)
  all_goals
    obtain rfl := h
    cases eOrder
  · exact hlow 2 (by decide)
  · exact congrArg List.reverse (hlow 2 (by decide))
  · exact hlow 4 (by decide)
  · exact congrArg List.reverse (hlow 4 (by decide))
  · exact hlow 8 (by decide)
  · exact congrArg List.reverse (hlow 8 (by decide))

theorem lowBytes_congr (eOrder : Order) {n : ℕ} (h : w % 2 ^ (8 * n) = v % 2 ^ (8 * n)) :
    lowBytes eOrder n w = lowBytes eOrder n v := by
  have hmap : ((List.range n).map fun k => UInt8.ofNat (w / 2 ^ (8 * k) % 256).toNat) =
      (List.range n).map fun k => UInt8.ofNat (v / 2 ^ (8 * k) % 256).toNat := by
    refine map_congr_left fun k hk => ?_
    have hk := mem_range.mp hk
    rw [← emod_ediv_emod w hk, h, emod_ediv_emod v hk]
  rw [lowBytes, lowBytes, hmap]

theorem intBytes_eq_iff (hw : IntWidth op.nWidth) : intBytes op w = intBytes op v ↔
    w % 2 ^ (8 * op.nWidth) = v % 2 ^ (8 * op.nWidth) := by
  constructor
  · intro h
    have hwrap := (readInt_intBytes hw w []).symm.trans (h ▸ readInt_intBytes hw v [])
    have hmod := congrArg (· % ((2 ^ (8 * op.nWidth) : ℕ) : ℤ)) hwrap
    simp only [wrap, bmod_emod] at hmod
    exact hmod
  · intro h
    rw [intBytes_eq_lowBytes hw, intBytes_eq_lowBytes hw, lowBytes_congr _ h]

theorem parseTrunc_eq_ok (hbig : env.bBigint = true) :
    (parseTrunc env z).result = .ok w ↔ parseWideInt z = .ok w ∨
      (∀ w, parseWideInt z ≠ .ok w) ∧ Bigint.isBigint env.mp z = true ∧
        parseBigint env z = .ok w := by
  unfold parseTrunc
  cases hparse : parseWideInt z with
  | ok v => simp
  | error e =>
    have hgrant : (allocate (messageLength e + 1)).result = .ok () := rfl
    cases hbigint : parseBigint env z <;> cases Bigint.isBigint env.mp z <;> simp [hbig, hgrant]

theorem isBigint_iff (hmp : env.mp.Exact) : Bigint.isBigint env.mp z = true ↔
    ∃ u, Bigint.fromStr env.mp z = some u ∧ 2 ^ 63 ≤ u.natAbs := by
  unfold Bigint.isBigint
  cases Bigint.fromStr env.mp z <;> simp [hmp.countBits, Nat.lt_size]

theorem store_inj {out : FormatBuf} {x y : Bytes} (h : out.store x = out.store y)
    (hlength : x.length = y.length) : x = y := by
  have hbuf := congrArg FormatBuf.zBuf h
  simp only [FormatBuf.store, hlength] at hbuf
  exact append_cancel_left (append_cancel_right hbuf)

/-- An integer field gets the lowest bits of its argument exactly if the argument fits 64 bits,
or the library reads it with bit 63 clear and with the right lowest bits. -/
theorem formatInts_writes_iff (hmp : env.mp.Exact) (hbig : env.bBigint = true)
    (hop : t.op ∈ aBinaryOps env.native) (hint : t.op.kind = .int) (hz : IsInteger z v)
    (out : FormatBuf) (rest : List Bytes) :
    (formatInts env t.op 1 ⟨out, z :: rest⟩).result =
        .ok ⟨out.store (lowBytes t.op.eOrder t.op.nWidth v), rest⟩ ↔
      KeepsLowBits env.mp t.op z v := by
  have hw : IntWidth t.op.nWidth := intWidth_of_mem hop hint
  have hfield : (formatInts env t.op 1 ⟨out, z :: rest⟩).result =
        .ok ⟨out.store (lowBytes t.op.eOrder t.op.nWidth v), rest⟩ ↔
      ∃ w, (parseTrunc env z).result = .ok w ∧
        w % 2 ^ (8 * t.op.nWidth) = v % 2 ^ (8 * t.op.nWidth) := by
    simp only [formatInts, takeArg, Traced.bind_eq_ok, Traced.pure_result, Except.ok.injEq,
      exists_eq_left', FormatState.mk.injEq, and_true]
    refine exists_congr fun w => and_congr_right fun _ => ?_
    rw [← intBytes_eq_lowBytes hw, ← intBytes_eq_iff hw]
    refine ⟨fun h => store_inj h ?_, fun h => by rw [h]⟩
    rw [length_intBytes hw, length_intBytes hw]
  have hfits : ∀ w, parseWideInt z = .ok w → w = v := by
    intro w hparse
    obtain ⟨base, m, hlit, hv⟩ := hz
    obtain ⟨base', m', hlit', hv', -⟩ := parseWideInt_eq_ok.mp hparse
    obtain ⟨-, rfl⟩ := hlit.unique hlit'
    exact hv'.trans hv.symm
  rw [hfield]
  simp only [parseTrunc_eq_ok hbig, isBigint_iff hmp, parseBigint_eq_ok hmp]
  constructor
  · rintro ⟨w, hparse | ⟨-, ⟨u, hu, hwide⟩, u', hu', hlow, rfl⟩, hmod⟩
    · exact .inl (hfits w hparse ▸ hparse)
    · obtain rfl := Option.some.inj (hu.symm.trans hu')
      refine .inr ⟨u, hu, hwide, hlow, ?_⟩
      rwa [emod_emod_of_dvd u (pow_dvd_pow 2 (by have := hw.bounds; omega))] at hmod
  · rintro (hparse | ⟨u, hu, hwide, hlow, hmod⟩)
    · exact ⟨v, .inl hparse, rfl⟩
    · by_cases hparse : ∃ w, parseWideInt z = .ok w
      · obtain ⟨w, hparse⟩ := hparse
        exact ⟨w, .inl hparse, by rw [hfits w hparse]⟩
      · refine ⟨u % 2 ^ 64, .inr ⟨not_exists.mp hparse, ⟨u, hu, hwide⟩, u, hu, hlow, rfl⟩, ?_⟩
        rwa [emod_emod_of_dvd u (pow_dvd_pow 2 (by have := hw.bounds; omega))]

/-- `I`, which takes 255. -/
theorem formatInts_writes_plain :
    (formatInts sampleEnv ⟨0x49, .int, 4, .big, true, true⟩ 1 ⟨.empty, [ascii "255"]⟩).result =
        .ok ⟨FormatBuf.empty.store [0, 0, 0, 0xff], []⟩ ↔
      KeepsLowBits sampleEnv.mp ⟨0x49, .int, 4, .big, true, true⟩ (ascii "255") 255 :=
  @formatInts_writes_iff sampleEnv ⟨⟨0x49, .int, 4, .big, true, true⟩, 1, false⟩ _ 255
    Bigint.referenceLib_exact rfl (by decide) rfl
    ⟨10, 255, .decimal (by decide) (by rintro d rest ⟨⟩) (by decide), by decide⟩ .empty []

/-- `c` refuses `9223372036854775808`, whose lowest byte is zero. -/
theorem formatInts_refuses_bit63 :
    IsInteger (ascii "9223372036854775808") (2 ^ 63) ∧ (lowBytes .little 1 (2 ^ 63) = [0]) ∧
      ∃ e, (formatInts sampleEnv ⟨0x63, .int, 1, .little, true, true⟩ 1
        ⟨.empty, [ascii "9223372036854775808"]⟩).result = .error e := by
  refine ⟨⟨10, 2 ^ 63, .decimal (by decide) (fun _ _ h => ?_) (by decide), by decide⟩,
    by decide, _, rfl⟩
  exact absurd (List.cons.inj h).1 (by decide)

end Binary

end Th8
