import Th8.Binary.Cursors

/-!
# Where the two commands agree

When no specifier that moves the cursor carries a star, the two commands accept the same
format strings, and over the bytes of `binary format` the cursor of `binary scan` follows that
of `binary format` as long as every starred value specifier stands for the rest of the bytes.
-/

namespace Th8

open Support List
open Bigint (MpLib)

namespace Binary

variable {env : Env} {t : Token} {toks : List Token} {args : List Bytes} {fs fs' : FormatState}
  {s s' : ScanState} {zIn : Bytes}

/-! ## Cursors -/

/-- The cursor of `binary format` after each token that is carried out. -/
def formatCursors (env : Env) : List Token → FormatState → List ℕ
  | [], _ => []
  | t :: rest, s =>
    match (formatToken env t s).result with
    | .ok s' => s'.out.iCur :: formatCursors env rest s'
    | .error _ => []

/-- The cursor of `binary scan` after each token that is carried out. -/
def scanCursors (env : Env) (zIn : Bytes) : List Token → ScanState → List ℕ
  | [], _ => []
  | t :: rest, s =>
    match (scanToken env zIn t s).result with
    | .ok s' => if s'.bOut then [] else s'.iCur :: scanCursors env zIn rest s'
    | .error _ => []

def PlainMoves (toks : List Token) : Prop :=
  ∀ t ∈ toks, t.op.kind.isCursor = true → t.bStar = false

/-- Without the library, `j` and `J` are only good for 64 bits. -/
def Narrow (env : Env) (t : Token) : Prop :=
  t.op.kind = .bigintFixed → env.bBigint = false → t.count ≤ 8

/-- A star of a value specifier stands for all bytes up to `n`, but for a part of an element
at the end. -/
def Clear (env : Env) (n : ℕ) : List Token → List Bytes → ℕ → Prop
  | [], _, _ => True
  | t :: rest, args, c =>
    (t.bStar = true → n < nextCursor env t args c + elemWidth t) ∧
      Clear env n rest (args.drop (argsUsed t)) (nextCursor env t args c)

instance : Decidable (PlainMoves toks) :=
  inferInstanceAs (Decidable (∀ t ∈ toks, _))

instance : Decidable (Narrow env t) :=
  inferInstanceAs (Decidable (_ → _ → _))

instance decidableClear (env : Env) (n : ℕ) :
    ∀ toks args c, Decidable (Clear env n toks args c)
  | [], _, _ => .isTrue trivial
  | t :: rest, args, c =>
    have := decidableClear env n rest (args.drop (argsUsed t)) (nextCursor env t args c)
    inferInstanceAs (Decidable (_ ∧ _))

def allNeeds (toks : List Token) : ℕ := (toks.map needs).sum

theorem elemWidth_pos {native : Order} (hmem : t.op ∈ aBinaryOps native) : 0 < elemWidth t := by
  rw [elemWidth]
  split
  · rename_i hkind
    have hwidth := (width_cases hmem).1 hkind
    omega
  · decide
  · decide
  · decide

theorem elemWidth_dvd_fieldLen (args : List Bytes) : elemWidth t ∣ fieldLen env t args := by
  rcases hkind : t.op.kind <;> simp [fieldLen, elemWidth, hkind]

theorem starCursor_eq_iff {c f n w : ℕ} (hw : 0 < w) (hdvd : w ∣ f) (hroom : c + f ≤ n) :
    c + (n - c) / w * w = c + f ↔ n < c + f + w := by
  obtain ⟨k, rfl⟩ := hdvd
  have hle : w * k ≤ n - c := by omega
  have hdiv := Nat.div_add_mod (n - c) w
  have hmod := Nat.mod_lt (n - c) hw
  rw [Nat.mul_comm ((n - c) / w) w]
  constructor
  · intro h
    omega
  · intro h
    have hquot : (n - c) / w = k := by
      refine Nat.div_eq_of_lt_le ?_ ?_
      · rw [Nat.mul_comm]
        exact hle
      · rw [Nat.succ_mul, Nat.mul_comm]
        omega
    rw [hquot]

theorem formatCursors_cons (h : (formatToken env t fs).result = .ok fs') :
    formatCursors env (t :: toks) fs = fs'.out.iCur :: formatCursors env toks fs' := by
  rw [formatCursors, h]

theorem scanCursors_cons (h : (scanToken env zIn t s).result = .ok s') (hout : s'.bOut = false) :
    scanCursors env zIn (t :: toks) s = s'.iCur :: scanCursors env zIn toks s' := by
  rw [scanCursors, h]
  dsimp only
  rw [hout, if_neg Bool.false_ne_true]

theorem scanCursors_eq_cons {c : ℕ} {cs : List ℕ}
    (h : scanCursors env zIn (t :: toks) s = c :: cs) :
    ∃ s', (scanToken env zIn t s).result = .ok s' ∧ s'.iCur = c := by
  rw [scanCursors] at h
  rcases hstep : (scanToken env zIn t s).result with e | s'
  · rw [hstep] at h
    cases h
  · rw [hstep] at h
    dsimp only at h
    split_ifs at h
    exact ⟨s', rfl, (List.cons.inj h).1⟩

theorem count_ne_zero {z : Bytes} (hfield : FieldOf env t args z)
    (hkind : t.op.kind = .bigintFixed) (hstar : t.bStar = false) : t.count ≠ 0 := by
  cases hfield with
  | ints h => rw [hkind] at h; cases h
  | floats h => rw [hkind] at h; cases h
  | str h => rw [hkind] at h; rcases h with h | h <;> cases h
  | digits h => rw [hkind] at h; cases h
  | bigint _ _ hwidth =>
    intro hzero
    rw [bigintWidth, if_neg (by simp [hstar]), if_pos hzero] at hwidth
    cases hwidth

theorem scanToken_follows (hmp : env.mp.Exact) (hzIn : zIn.length ≤ lenMask)
    (hfollows : Follows env t fs fs') (hstar : t.bStar = false) (hnarrow : Narrow env t)
    (hcur : s.iCur = fs.out.iCur) (hroom : nextCursor env t fs.args fs.out.iCur ≤ zIn.length)
    (hnames : needs t ≤ s.names.length) :
    ∃ s', (scanToken env zIn t s).result = .ok s' ∧
      Scanned t s s' (nextCursor env t fs.args fs.out.iCur) := by
  rcases hcursor : t.op.kind.isCursor with _ | _
  · obtain ⟨z, hfield⟩ := hfollows.field hcursor
    have hnext : nextCursor env t fs.args fs.out.iCur = s.iCur + fieldLen env t fs.args := by
      rw [nextCursor, hcursor, if_neg Bool.false_ne_true, hcur]
    rw [hnext] at hroom ⊢
    exact scanToken_count hmp hzIn hstar hcursor hroom hnames
      (fun hkind => count_ne_zero hfield hkind hstar) hnarrow
  · have hnext : nextCursor env t fs.args fs.out.iCur = cursorTo t s.iCur := by
      rw [nextCursor, hcursor, if_pos rfl, hcur]
    rw [hnext] at hroom ⊢
    exact scanToken_cursor hcursor hstar fun _ => hroom

theorem scanToken_star_iff (hmp : env.mp.Exact) (hzIn : zIn.length ≤ lenMask)
    (hmem : t.op ∈ aBinaryOps env.native) (hstar : t.bStar = true)
    (hvalue : t.op.kind.isCursor = false) (hcur : s.iCur = fs.out.iCur)
    (hroom : nextCursor env t fs.args fs.out.iCur ≤ zIn.length)
    (hwide : t.op.kind = .bigintFixed → env.bBigint = false → fieldLen env t fs.args ≤ 8)
    (hnames : needs t ≤ s.names.length) :
    if zIn.length < nextCursor env t fs.args fs.out.iCur + elemWidth t then
      ∃ s', (scanToken env zIn t s).result = .ok s' ∧
        Scanned t s s' (nextCursor env t fs.args fs.out.iCur)
    else ∀ s', (scanToken env zIn t s).result = .ok s' →
      s'.iCur ≠ nextCursor env t fs.args fs.out.iCur := by
  have hnext : nextCursor env t fs.args fs.out.iCur = s.iCur + fieldLen env t fs.args := by
    rw [nextCursor, hvalue, if_neg Bool.false_ne_true, hcur]
  rw [hnext] at hroom ⊢
  have hiff := starCursor_eq_iff (elemWidth_pos hmem) (elemWidth_dvd_fieldLen fs.args) hroom
  have hle : s.iCur ≤ zIn.length := (Nat.le_add_right _ _).trans hroom
  split_ifs with hclear
  · rw [← hiff.mpr hclear]
    refine scanToken_star hmp hzIn hstar hvalue hle hnames fun hkind hbig => ?_
    have h8 := hwide hkind hbig
    have hone : elemWidth t = 1 := by simp only [elemWidth, hkind]
    omega
  · intro s' hscan hiCur
    by_cases hkind : t.op.kind = .bigintFixed
    · obtain ⟨zVarName, rest, hcons⟩ := exists_cons_of_ne_nil
        (ne_nil_of_length_pos ((needs_pos hvalue).trans hnames))
      have hone : elemWidth t = 1 := by simp only [elemWidth, hkind]
      rw [scanToken_value hvalue hcons, scanValue_bigint hkind] at hscan
      have hend := scanBigint_star hstar hle hscan
      omega
    · obtain ⟨s'', hscan', hscanned⟩ := scanToken_star hmp hzIn hstar hvalue hle hnames
        fun h => absurd h hkind
      rw [hscan] at hscan'
      cases hscan'
      exact hclear (hiff.mp (hscanned.iCur.symm.trans hiCur))

theorem fieldLen_star_le (args : List Bytes) (hstar : t.bStar = true)
    (hkind : t.op.kind = .bigintFixed) (hbig : env.bBigint = false) :
    fieldLen env t args ≤ 8 := by
  simp [fieldLen, hkind, bigintLen, bigintWidth, hstar, hbig]

theorem scanCursors_eq_iff (hmp : env.mp.Exact) (hzIn : zIn.length ≤ lenMask)
    (hvalid : ∀ t ∈ toks, t.Valid env.native) (hplain : PlainMoves toks)
    (hnarrow : ∀ t ∈ toks, t.bStar = false → Narrow env t) (hs : fs.out.Within)
    (hformat : (formatTokens env toks fs).result = .ok fs')
    (hreach : fs'.out.zBuf.length = zIn.length) (hcur : s.iCur = fs.out.iCur)
    (hout : s.bOut = false) (hnames : allNeeds toks ≤ s.names.length) :
    scanCursors env zIn toks s = formatCursors env toks fs ↔
      Clear env zIn.length toks fs.args fs.out.iCur := by
  induction toks generalizing fs s with
  | nil => simp [scanCursors, formatCursors, Clear]
  | cons t toks ih =>
    have hvalid' : ∀ u ∈ toks, u.Valid env.native := fun u hu => hvalid u (mem_cons_of_mem _ hu)
    have hmem := (hvalid t mem_cons_self).mem
    rw [formatTokens] at hformat
    obtain ⟨fs₁, hstep, hformat⟩ := Traced.bind_eq_ok.mp hformat
    have hfollows := formatToken_follows hmp hmem hs hstep
    have hlength := formatTokens_reach hmp hvalid' hfollows.within hformat
    have hroom : nextCursor env t fs.args fs.out.iCur ≤ zIn.length := by
      rw [← hreach, hlength]
      refine le_trans ?_ (le_reach _ _ _ _ _)
      rw [hfollows.length]
      exact le_max_right _ _
    have hsum : needs t + allNeeds toks ≤ s.names.length := by
      simpa [allNeeds] using hnames
    have hgoOn : ∀ {s' : ScanState}, (scanToken env zIn t s).result = .ok s' →
        Scanned t s s' (nextCursor env t fs.args fs.out.iCur) →
        (scanCursors env zIn (t :: toks) s = formatCursors env (t :: toks) fs ↔
          Clear env zIn.length toks (fs.args.drop (argsUsed t))
            (nextCursor env t fs.args fs.out.iCur)) := by
      intro s' hscan hscanned
      have hrest := ih (s := s') hvalid' (fun u hu => hplain u (mem_cons_of_mem _ hu))
        (fun u hu => hnarrow u (mem_cons_of_mem _ hu)) hfollows.within hformat
        (hscanned.iCur.trans hfollows.iCur.symm) (hscanned.bOut.trans hout)
        (by have hleft := hscanned.names; omega)
      rw [scanCursors_cons hscan (hscanned.bOut.trans hout), formatCursors_cons hstep,
        hscanned.iCur, hfollows.iCur, cons_inj_right, hrest, hfollows.args, hfollows.iCur]
    rw [Clear]
    rcases hstar : t.bStar with _ | _
    · obtain ⟨s', hscan, hscanned⟩ := scanToken_follows hmp hzIn hfollows hstar
        (hnarrow t mem_cons_self hstar) hcur hroom (by omega)
      rw [hgoOn hscan hscanned]
      exact ⟨fun h => ⟨fun hstar => (by cases hstar), h⟩, fun h => h.2⟩
    · have hvalue : t.op.kind.isCursor = false := by
        by_contra hcursor
        have hnot := hplain t mem_cons_self (by simpa using hcursor)
        rw [hstar] at hnot
        cases hnot
      have hone := scanToken_star_iff hmp hzIn hmem hstar hvalue hcur hroom
        (fun hkind hbig => fieldLen_star_le _ hstar hkind hbig) (by omega)
      split_ifs at hone with hclear
      · obtain ⟨s', hscan, hscanned⟩ := hone
        rw [hgoOn hscan hscanned]
        exact ⟨fun h => ⟨fun _ => hclear, h⟩, fun h => h.2⟩
      · refine ⟨fun h => ?_, fun h => absurd (h.1 rfl) hclear⟩
        rw [formatCursors_cons hstep, hfollows.iCur] at h
        obtain ⟨s', hscan, hiCur⟩ := scanCursors_eq_cons h
        exact absurd hiCur (hone s' hscan)

end Binary

end Th8
