import Th8.Binary.Agreement

/-!
# Which format strings are accepted

A command accepts a format string when it reads it to its end and every specifier can be
carried out.  The arguments of `binary format` and the bytes for `binary scan` that show it
are as short as can be.
-/

namespace Th8

open Support List Traced
open Bigint (MpLib)

namespace Binary

variable {env : Env} {t : Token} {fs : FormatState} {args : List Bytes}

/-- `binary format` carries out the specifier on some arguments. -/
def FormatCarriesOut (env : Env) (t : Token) : Prop :=
  ∃ args s', (formatToken env t ⟨.empty, args⟩).result = .ok s'

/-- `binary scan` carries out the specifier on some bytes, with some variables. -/
def ScanCarriesOut (env : Env) (t : Token) : Prop :=
  ∃ zIn names s', zIn.length ≤ lenMask ∧
    (scanToken env zIn t ⟨0, names, 0, false⟩).result = .ok s' ∧ s'.bOut = false

def FormatAccepts (env : Env) (zFmt : Bytes) : Prop :=
  (tokens env.native zFmt).2 = none ∧ ∀ t ∈ (tokens env.native zFmt).1, FormatCarriesOut env t

def ScanAccepts (env : Env) (zFmt : Bytes) : Prop :=
  (tokens env.native zFmt).2 = none ∧ ∀ t ∈ (tokens env.native zFmt).1, ScanCarriesOut env t

theorem growTo_ok {nNeed fuel nNew k : ℕ} (hneed : nNeed ≤ nNew * 2 ^ k)
    (hsize : nNew * 2 ^ k < 2 ^ 64) (hk : k < fuel) :
    ∃ n, growTo nNeed fuel nNew = some n := by
  induction k generalizing fuel nNew with
  | zero =>
    obtain ⟨fuel, rfl⟩ := Nat.exists_eq_succ_of_ne_zero (Nat.ne_zero_of_lt hk)
    rw [pow_zero, Nat.mul_one] at hneed
    exact ⟨nNew, by rw [growTo, if_pos hneed]⟩
  | succ k ih =>
    obtain ⟨fuel, rfl⟩ := Nat.exists_eq_succ_of_ne_zero (Nat.ne_zero_of_lt hk)
    have hstep : nNew * 2 ^ (k + 1) = nNew * 2 * 2 ^ k := by rw [pow_succ]; ring
    rw [hstep] at hneed hsize
    have hpos : 1 ≤ 2 ^ k := Nat.one_le_two_pow
    have hdouble : nNew * 2 ≤ nNew * 2 * 2 ^ k := Nat.le_mul_of_pos_right _ hpos
    rw [growTo]
    split_ifs with hfits hover
    · exact ⟨nNew, rfl⟩
    · omega
    · exact ih hneed hsize (Nat.lt_of_succ_lt_succ hk)

theorem reserveAt_empty {iPos nMore : ℕ} (h : iPos + nMore ≤ 2 ^ 63) :
    ∃ out, (reserveAt .empty iPos nMore).result = .ok out := by
  have hover : ¬2 ^ 64 ≤ iPos + nMore := by omega
  rw [reserveAt, if_neg hover]
  split_ifs with hroom
  · have hgrow : ∃ n, grow FormatBuf.empty.nAlloc (iPos + nMore) = some n :=
      growTo_ok (k := 57) (h.trans (by decide)) (by decide) (by decide)
    obtain ⟨n, hn⟩ := hgrow
    rw [hn]
    exact ⟨_, rfl⟩
  · exact ⟨_, rfl⟩

theorem reserve_empty {nMore : ℕ} (h : nMore ≤ 2 ^ 63) :
    ∃ out, (reserve .empty nMore).result = .ok out :=
  reserveAt_empty (by simpa [FormatBuf.empty] using h)

/-! ## Specifiers of `binary format` -/

def zeroText : Bytes := Bigint.decimal 0

theorem parseTrunc_zero : (parseTrunc env zeroText).result = .ok 0 := by
  have hparse : parseWideInt zeroText = .ok 0 := Bigint.parseWideInt_decimal (by decide)
  rw [parseTrunc, hparse]
  rfl

theorem formatInts_zeros (env : Env) (op : OpDef) (count : ℕ) (out : FormatBuf) :
    ∃ s', (formatInts env op count ⟨out, List.replicate count zeroText⟩).result = .ok s' := by
  induction count generalizing out with
  | zero => exact ⟨_, rfl⟩
  | succ count ih =>
    obtain ⟨s', hs'⟩ := ih (out.store (intBytes op 0))
    refine ⟨s', ?_⟩
    rw [formatInts]
    exact bind_eq_ok.mpr ⟨(zeroText, ⟨out, List.replicate count zeroText⟩), rfl,
      bind_eq_ok.mpr ⟨0, parseTrunc_zero, hs'⟩⟩

theorem formatFloats_texts (bSingle : Bool) (eOrder : Order) (count : ℕ) (out : FormatBuf)
    {z : Bytes} {d : env.floats.Double} (hz : env.floats.toDouble z = .ok d) :
    ∃ s', (formatFloats env bSingle eOrder count ⟨out, List.replicate count z⟩).result =
      .ok s' := by
  induction count generalizing out with
  | zero => exact ⟨_, rfl⟩
  | succ count ih =>
    obtain ⟨s', hs'⟩ := ih (out.store (floatBytes env.floats bSingle eOrder d))
    refine ⟨s', ?_⟩
    rw [formatFloats]
    exact bind_eq_ok.mpr ⟨(z, ⟨out, List.replicate count z⟩), rfl, bind_eq_ok.mpr ⟨d, hz, hs'⟩⟩

theorem takeList_nil (nWidth : ℕ) :
    ∃ s', (takeList nWidth ⟨.empty, [[]]⟩).result = .ok ([], s') := by
  have hsplit : splitArg [] = .ok [] := by decide
  have hsize : safeMulSize ([] : List Bytes).length nWidth = some 0 := by
    simp [safeMulSize]
  refine ⟨⟨.empty, []⟩, ?_⟩
  rw [takeList]
  refine bind_eq_ok.mpr ⟨([], ⟨.empty, []⟩), rfl, bind_eq_ok.mpr ⟨[], hsplit, ?_⟩⟩
  rw [hsize]
  rfl

theorem takeRoom_empty {count nWidth : ℕ} (args : List Bytes) (hwidth : 0 < nWidth)
    (hsmall : count * nWidth ≤ lenMask) :
    ∃ out, (takeRoom count nWidth ⟨.empty, args⟩).result = .ok ⟨out, args⟩ := by
  have hmax : ¬maxCount / nWidth < count := by
    rw [not_lt, Nat.le_div_iff_mul_le hwidth]
    exact hsmall.trans (by decide)
  obtain ⟨out, hout⟩ := reserve_empty (hsmall.trans (by decide))
  rw [takeRoom, if_neg hmax]
  exact ⟨out, bind_eq_ok.mpr ⟨out, hout, rfl⟩⟩

theorem formatDigits_nil {nPoll : ℕ} {bytes : ℕ → Bytes → Bytes}
    (hlen : (bytes (if t.bStar then 0 else t.count) []).length ≤ lenMask) :
    ∃ s', (formatDigits t nPoll bytes ⟨.empty, [[]]⟩).result = .ok s' := by
  obtain ⟨out, hout⟩ := reserve_empty (hlen.trans (by decide))
  rw [formatDigits]
  exact ⟨_, bind_eq_ok.mpr ⟨([], ⟨.empty, []⟩), rfl, bind_eq_ok.mpr ⟨out, hout, rfl⟩⟩⟩

theorem bigintField_zero (hmp : env.mp.Exact) {nWidth : ℕ} (hpos : 0 < nWidth)
    (hsmall : nWidth ≤ lenMask) : ∃ z, bigintField env t nWidth zeroText = .ok z := by
  have hsmall' : nWidth < 2 ^ 28 := hsmall.trans_lt (by decide)
  have hcast : Bigint.castBytes nWidth = nWidth := Nat.mod_eq_of_lt (by omega)
  have hzero : Bigint.leadingDigits 0 = 0 := Bigint.leadingDigits_eq_zero.mpr rfl
  rw [bigintField]
  split_ifs with hbig
  · rw [zeroText, Bigint.toTwosComplement_eq hmp (by rwa [hcast]) (by rwa [hcast]), hcast,
      hzero, if_pos]
    · exact ⟨_, rfl⟩
    · have hpow : (2 : ℤ) ^ (8 * nWidth) = 2 * 2 ^ (8 * nWidth - 1) := by
        rw [← pow_succ']
        congr 1
        omega
      have hone : (1 : ℤ) ≤ 2 ^ (8 * nWidth - 1) := one_le_pow₀ (by decide)
      rw [TwosRange, hpow]
      omega
  · have hparse : parseWideInt zeroText = .ok 0 := Bigint.parseWideInt_decimal (by decide)
    have hwide : ∃ z, wideField nWidth 0 = .ok z := by
      have hone : (1 : ℤ) ≤ 2 ^ (nWidth * 8 - 1) := one_le_pow₀ (by decide)
      rw [wideField]
      split_ifs with hlong hneg hrange
      · exact ⟨_, rfl⟩
      · exact ⟨_, rfl⟩
      · omega
      · exact ⟨_, rfl⟩
    obtain ⟨z, hz⟩ := hwide
    rw [wideBytes, hparse]
    exact ⟨_, map_eq_ok.mpr ⟨z, hz, rfl⟩⟩

theorem bigintWidth_zero (hmp : env.mp.Exact) (hcount : t.bStar = false → t.count ≠ 0)
    (hsmall : t.bStar = false → t.count ≤ lenMask) :
    ∃ nWidth, bigintWidth env t zeroText = .ok nWidth ∧ 0 < nWidth ∧ nWidth ≤ lenMask := by
  rw [bigintWidth]
  split_ifs with hstar hbig hzero
  · rw [zeroText, Bigint.minTwosComplementBytes_eq hmp, Bigint.leadingDigits_eq_zero.mpr rfl]
    exact ⟨_, rfl, by decide, by decide⟩
  · exact ⟨8, rfl, by decide, by decide⟩
  · exact absurd hzero (hcount (by simpa using hstar))
  · exact ⟨_, rfl, Nat.pos_of_ne_zero hzero, hsmall (by simpa using hstar)⟩

theorem formatBigint_zero (hmp : env.mp.Exact) (hcount : t.bStar = false → t.count ≠ 0)
    (hsmall : t.bStar = false → t.count ≤ lenMask) :
    ∃ s', (formatBigint env t ⟨.empty, [zeroText]⟩).result = .ok s' := by
  obtain ⟨nWidth, hwidth, hpos, hle⟩ := bigintWidth_zero hmp hcount hsmall
  obtain ⟨z, hz⟩ := bigintField_zero (t := t) hmp hpos hle
  obtain ⟨out, hout⟩ := reserve_empty (hle.trans (by decide))
  rw [formatBigint]
  exact ⟨_, bind_eq_ok.mpr ⟨(zeroText, ⟨.empty, []⟩), rfl,
    bind_eq_ok.mpr ⟨nWidth, hwidth, bind_eq_ok.mpr ⟨out, hout, bind_eq_ok.mpr ⟨z, hz, rfl⟩⟩⟩⟩⟩

theorem not_refused (hmem : t.op ∈ aBinaryOps env.native)
    (hplain : t.op.kind.isCursor = true → t.bStar = false) :
    ¬(t.bStar && !t.op.bStarFmt) = true := by
  intro h
  rw [Bool.and_eq_true, Bool.not_eq_true'] at h
  have hcursor : t.op.kind.isCursor = true := by
    rcases (width_cases hmem).2.mp h.2 with hkind | hkind
    · rw [hkind]
      rfl
    · rw [hkind]
      rfl
  rw [hplain hcursor] at h
  cases h.1

def Short (env : Env) (t : Token) : Prop :=
  t.bStar = false → t.op.kind.isCursor = false → fieldLen env t [] ≤ lenMask

/-- `j` and `J` have no fields of zero bytes. -/
def Sized (t : Token) : Prop := t.op.kind = .bigintFixed → t.bStar = false → t.count ≠ 0

instance : Decidable (Short env t) :=
  inferInstanceAs (Decidable (_ → _ → _))

theorem formatInt_carriedOut (hwidth : 0 < t.op.nWidth)
    (hroom : t.bStar = false → t.count * t.op.nWidth ≤ lenMask) :
    ∃ args s', (formatInt env t ⟨.empty, args⟩).result = .ok s' := by
  simp only [formatInt]
  rcases hstar : t.bStar with _ | _
  · obtain ⟨out, hout⟩ := takeRoom_empty (List.replicate t.count zeroText) hwidth (hroom hstar)
    obtain ⟨s', hs'⟩ := formatInts_zeros env t.op t.count out
    exact ⟨_, s', bind_eq_ok.mpr ⟨_, hout, hs'⟩⟩
  · obtain ⟨s₁, hs₁⟩ := takeList_nil t.op.nWidth
    exact ⟨_, s₁, bind_eq_ok.mpr ⟨_, hs₁, rfl⟩⟩

theorem formatFloat_carriedOut (hnum : ∃ z d, env.floats.toDouble z = .ok d)
    (hroom : t.bStar = false → t.count * floatWidth (t.op.kind == .float) ≤ lenMask) :
    ∃ args s', (formatFloat env t ⟨.empty, args⟩).result = .ok s' := by
  obtain ⟨z, d, hz⟩ := hnum
  have hwidth : 0 < floatWidth (t.op.kind == .float) := by
    rw [floatWidth]
    split_ifs
    · decide
    · decide
  simp only [formatFloat]
  rcases hstar : t.bStar with _ | _
  · obtain ⟨out, hout⟩ := takeRoom_empty (List.replicate t.count z) hwidth (hroom hstar)
    obtain ⟨s', hs'⟩ := formatFloats_texts (t.op.kind == .float) t.op.eOrder t.count out hz
    exact ⟨_, s', bind_eq_ok.mpr ⟨_, hout, hs'⟩⟩
  · obtain ⟨s₁, hs₁⟩ := takeList_nil (floatWidth (t.op.kind == .float))
    exact ⟨_, s₁, bind_eq_ok.mpr ⟨_, hs₁, rfl⟩⟩

theorem formatCarriesOut_of_sized (hmp : env.mp.Exact)
    (hnum : ∃ z d, env.floats.toDouble z = .ok d) (hvalid : t.Valid env.native)
    (hplain : t.op.kind.isCursor = true → t.bStar = false) (hshort : Short env t)
    (hsized : Sized t) : FormatCarriesOut env t := by
  have hlen : t.bStar = false → t.op.kind.isCursor = false → fieldLen env t [] ≤ lenMask := hshort
  have hcount : t.count ≤ 2 ^ 63 := hvalid.count_le.trans (by decide)
  rw [FormatCarriesOut]
  simp only [formatToken, if_neg (not_refused hvalid.mem hplain)]
  rcases hkind : t.op.kind with _ | _ | _ | _ | _ | _ | _ | _ | _ | _ | _ | _ | _
  case int =>
    have hwidth := elemWidth_pos hvalid.mem
    simp only [fieldLen, elemWidth, extent, hkind] at hlen hwidth
    exact formatInt_carriedOut hwidth fun hstar => by simpa [hstar] using hlen hstar rfl
  case float =>
    simp only [fieldLen, elemWidth, extent, hkind] at hlen
    refine formatFloat_carriedOut hnum fun hstar => ?_
    simpa [hstar, hkind, floatWidth] using hlen hstar rfl
  case double =>
    simp only [fieldLen, elemWidth, extent, hkind] at hlen
    refine formatFloat_carriedOut hnum fun hstar => ?_
    simpa [hstar, hkind, floatWidth] using hlen hstar rfl
  case bigintFixed =>
    refine ⟨_, formatBigint_zero hmp (hsized hkind) fun hstar => ?_⟩
    have hne := hsized hkind hstar
    have hvalue : t.op.kind.isCursor = false := by
      rw [hkind]
      rfl
    simpa [fieldLen, hkind, bigintLen, bigintWidth, hstar, hne] using hlen hstar hvalue
  case pad =>
    obtain ⟨out, hout⟩ := reserve_empty hcount
    exact ⟨[], _, bind_eq_ok.mpr ⟨out, hout, rfl⟩⟩
  case back => exact ⟨[], _, rfl⟩
  case seek =>
    obtain ⟨out, hout⟩ := reserveAt_empty (show t.count + 0 ≤ 2 ^ 63 from hcount)
    exact ⟨[], _, bind_eq_ok.mpr ⟨out, hout, rfl⟩⟩
  all_goals
    refine ⟨_, formatDigits_nil ?_⟩
    simp only [fieldLen, extent, hkind] at hlen
    simp only [length_strBytes, length_bitsBytes, length_hexBytes]
    split_ifs with hstar
    · decide
    · simpa [hstar] using hlen (by simpa using hstar) rfl

theorem formatCarriesOut_iff (hmp : env.mp.Exact)
    (hnum : ∃ z d, env.floats.toDouble z = .ok d) (hvalid : t.Valid env.native)
    (hplain : t.op.kind.isCursor = true → t.bStar = false) (hshort : Short env t) :
    FormatCarriesOut env t ↔ Sized t := by
  refine ⟨?_, formatCarriesOut_of_sized hmp hnum hvalid hplain hshort⟩
  rintro ⟨args, s', h⟩ hkind hstar
  have hempty : FormatBuf.empty.Within := le_rfl
  obtain ⟨z, hfield, -⟩ := formatToken_value hempty (by rw [hkind]; rfl) h
  exact count_ne_zero hfield hkind hstar

theorem scanToken_cursor_goesOn (env : Env) (zIn : Bytes) (s : ScanState)
    (hcursor : t.op.kind.isCursor = true) :
    ∃ s', (scanToken env zIn t s).result = .ok s' ∧ s'.bOut = s.bOut := by
  rcases hkind : t.op.kind <;> rw [hkind] at hcursor <;> cases hcursor
  · simp only [scanToken, hkind]
    exact ⟨_, rfl, rfl⟩
  · simp only [scanToken, hkind]
    exact ⟨_, rfl, rfl⟩
  · simp only [scanToken, hkind]
    exact ⟨_, rfl, rfl⟩

theorem scanCarriesOut_of_sized (hmp : env.mp.Exact) (hshort : Short env t)
    (hnarrow : t.bStar = false → Narrow env t) (hsized : Sized t) : ScanCarriesOut env t := by
  rcases hcursor : t.op.kind.isCursor with _ | _
  · rcases hstar : t.bStar with _ | _
    · have hlen := hshort hstar hcursor
      have hroom : 0 + fieldLen env t [] ≤
          (List.replicate (fieldLen env t []) (0 : Byte)).length := by
        rw [length_replicate, Nat.zero_add]
      obtain ⟨s', hs', hscanned⟩ := scanToken_count
        (s := ⟨0, List.replicate (needs t) [], 0, false⟩) hmp
        (by rw [length_replicate]; exact hlen) hstar hcursor hroom
        (by rw [length_replicate]) (fun hkind => hsized hkind hstar) (hnarrow hstar)
      exact ⟨_, _, s', by rw [length_replicate]; exact hlen, hs', hscanned.bOut⟩
    · have hempty : ([] : Bytes).length ≤ lenMask := Nat.zero_le _
      obtain ⟨s', hs', hscanned⟩ := scanToken_star
        (s := ⟨0, List.replicate (needs t) [], 0, false⟩) hmp hempty hstar hcursor
        le_rfl (by rw [length_replicate]) fun _ _ => Nat.zero_le _
      exact ⟨_, _, s', Nat.zero_le _, hs', hscanned.bOut⟩
  · obtain ⟨s', hs', hout⟩ := scanToken_cursor_goesOn env [] ⟨0, [], 0, false⟩ hcursor
    exact ⟨[], [], s', Nat.zero_le _, hs', hout⟩

theorem scanCarriesOut_iff (hmp : env.mp.Exact) (hshort : Short env t)
    (hnarrow : t.bStar = false → Narrow env t) : ScanCarriesOut env t ↔ Sized t := by
  refine ⟨?_, scanCarriesOut_of_sized hmp hshort hnarrow⟩
  rintro ⟨zIn, names, s', -, h, hout⟩ hkind hstar hzero
  have hvalue : t.op.kind.isCursor = false := by
    rw [hkind]
    rfl
  rcases names with _ | ⟨zVarName, rest⟩
  · simp only [scanToken, hkind] at h
    cases h
    cases hout
  · rw [scanToken_value hvalue rfl, scanValue_bigint hkind, scanBigint,
      if_pos (by simp [hstar, hzero])] at h
    cases h
    cases hout

/-! ## The two commands -/

/-- The commands accept the format string alike, and over the bytes of `binary format` the
cursors are the same after each token, when there are variables enough. -/
def CursorsAgree (env : Env) (zFmt : Bytes) : Prop :=
  (ScanAccepts env zFmt ↔ FormatAccepts env zFmt) ∧
    ∀ args out, (binaryFormat env zFmt args).result = .ok out →
      ∀ names, allNeeds (tokens env.native zFmt).1 ≤ names.length →
        scanCursors env out.bytes (tokens env.native zFmt).1 ⟨0, names, 0, false⟩ =
          formatCursors env (tokens env.native zFmt).1 ⟨.empty, args⟩

theorem binaryFormat_ok {zFmt : Bytes} {out : TString} (hmp : env.mp.Exact)
    (h : (binaryFormat env zFmt args).result = .ok out)
    (hreach : reach env (tokens env.native zFmt).1 args 0 0 ≤ lenMask) :
    ∃ s, (formatTokens env (tokens env.native zFmt).1 ⟨.empty, args⟩).result = .ok s ∧
      s.out.zBuf.length ≤ lenMask ∧ out.bytes = s.out.zBuf := by
  rw [binaryFormat] at h
  obtain ⟨s, hformat, h⟩ := bind_eq_ok.mp h
  have hempty : FormatBuf.empty.Within := le_rfl
  have hlen : s.out.zBuf.length ≤ lenMask :=
    (formatTokens_reach hmp (fun t ht => tokens_valid ht) hempty hformat).trans_le hreach
  refine ⟨s, hformat, hlen, ?_⟩
  rcases herror : (tokens env.native zFmt).2 with _ | e
  · rw [herror] at h
    dsimp only [setResult] at h
    split_ifs at h with hnil
    · cases h
      exact hnil.symm
    · cases h
      have hmod : s.out.zBuf.length % 2 ^ 28 = s.out.zBuf.length :=
        Nat.mod_eq_of_lt (hlen.trans_lt (by decide))
      rw [hmod, take_length]
  · rw [herror] at h
    cases h

/-- When no `x`, `X` or `@` carries a star, the commands accept the same format strings, and
the cursors are the same after each token just when every starred value specifier stands for
all the bytes that are left. -/
theorem cursors_agree_iff (hmp : env.mp.Exact) (hnum : ∃ z d, env.floats.toDouble z = .ok d)
    {zFmt : Bytes} (hplain : PlainMoves (tokens env.native zFmt).1)
    (hshort : ∀ t ∈ (tokens env.native zFmt).1, Short env t)
    (hnarrow : ∀ t ∈ (tokens env.native zFmt).1, t.bStar = false → Narrow env t) :
    (ScanAccepts env zFmt ↔ FormatAccepts env zFmt) ∧
      ∀ args out, (binaryFormat env zFmt args).result = .ok out →
        reach env (tokens env.native zFmt).1 args 0 0 ≤ lenMask →
        ∀ names, allNeeds (tokens env.native zFmt).1 ≤ names.length →
          (scanCursors env out.bytes (tokens env.native zFmt).1 ⟨0, names, 0, false⟩ =
              formatCursors env (tokens env.native zFmt).1 ⟨.empty, args⟩ ↔
            Clear env out.bytes.length (tokens env.native zFmt).1 args 0) := by
  have hvalid : ∀ t ∈ (tokens env.native zFmt).1, t.Valid env.native := fun t ht => tokens_valid ht
  refine ⟨and_congr_right fun _ => forall₂_congr fun t ht => ?_, ?_⟩
  · rw [scanCarriesOut_iff hmp (hshort t ht) (hnarrow t ht),
      formatCarriesOut_iff hmp hnum (hvalid t ht) (hplain t ht) (hshort t ht)]
  · intro args out hout hreach names hnames
    obtain ⟨s, hformat, hlen, hbytes⟩ := binaryFormat_ok hmp hout hreach
    have hempty : FormatBuf.empty.Within := le_rfl
    rw [hbytes]
    exact scanCursors_eq_iff hmp hlen hvalid hplain hnarrow hempty hformat rfl rfl rfl hnames

def sampleFloats : FloatLib where
  Double := ℕ
  toDouble z := if z = ascii "0" then .ok 0
    else .error (.message "expected floating-point number but got: \"" z)
  singlePattern d := d
  doublePattern d := d
  ofSingle n := n
  ofDouble n := n
  isNegative _ := false
  printSingle _ := ascii "0"
  printDouble _ := ascii "0"

def sampleEnv : Env where
  native := .little
  mp := Bigint.referenceLib
  bBigint := true
  floats := sampleFloats
  nResultLimit := lenMask

/-- `a*a`, where the star stands for all bytes in a scan. -/
theorem not_cursorsAgree : ¬∀ env zFmt, env.mp.Exact → CursorsAgree env zFmt := by
  intro h
  have hcursors := (h sampleEnv (ascii "a*a") Bigint.referenceLib_exact).2
    [ascii "x", ascii "y"] (.plain (ascii "xy")) (by decide) [ascii "u", ascii "v"]
    (by decide)
  revert hcursors
  decide

/-- `a2X@3a*`. -/
theorem cursors_agree_sample :
    (ScanAccepts sampleEnv (ascii "a2X@3a*") ↔ FormatAccepts sampleEnv (ascii "a2X@3a*")) ∧
      (scanCursors sampleEnv (ascii "xy" ++ [0] ++ ascii "z")
          (tokens .little (ascii "a2X@3a*")).1 ⟨0, [ascii "u", ascii "v"], 0, false⟩ =
        formatCursors sampleEnv (tokens .little (ascii "a2X@3a*")).1
          ⟨.empty, [ascii "xy", ascii "z"]⟩) := by
  have hnum : ∃ z d, sampleEnv.floats.toDouble z = .ok d :=
    ⟨ascii "0", (0 : ℕ), rfl⟩
  have hplain : PlainMoves (tokens sampleEnv.native (ascii "a2X@3a*")).1 := by decide
  have hagree := cursors_agree_iff Bigint.referenceLib_exact hnum hplain (by decide)
    (by decide)
  refine ⟨hagree.1, (hagree.2 [ascii "xy", ascii "z"] (.plain (ascii "xy" ++ [0] ++ ascii "z"))
    (by decide) (by decide) _ (by decide)).mpr ?_⟩
  decide

end Binary

end Th8
