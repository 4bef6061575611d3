import Th8.Binary.FormatSpec

/-!
# Where fields begin and end

The lengths of the arguments and the counts say how long each field is, and with the moves of
`x`, `X` and `@` where it stands.  Nothing here looks at a byte of the result.
-/

namespace Th8

open Support List
open Bigint (MpLib)

namespace Binary

variable {env : Env} {t : Token} {args : List Bytes}

def elemWidth (t : Token) : ℕ :=
  match t.op.kind with
  | .int => t.op.nWidth
  | .float => 4
  | .double => 8
  | _ => 1

def listLength (zList : Bytes) : ℕ :=
  match splitArg zList with
  | .ok azElem => azElem.length
  | .error _ => 0

def extent (t : Token) (args : List Bytes) : ℕ :=
  if t.bStar then
    match t.op.kind with
    | .int | .float | .double => listLength (args.headD [])
    | _ => (args.headD []).length
  else t.count

/-- The length of the field of `j` or `J`. -/
def bigintLen (env : Env) (t : Token) (args : List Bytes) : ℕ :=
  match bigintWidth env t (args.headD []) with
  | .ok nWidth => nWidth
  | .error _ => 0

def fieldLen (env : Env) (t : Token) (args : List Bytes) : ℕ :=
  match t.op.kind with
  | .int | .float | .double => extent t args * elemWidth t
  | .bitsLo | .bitsHi => (extent t args + 7) / 8
  | .hexLo | .hexHi => (extent t args + 1) / 2
  | .bigintFixed => bigintLen env t args
  | _ => extent t args

def nextCursor (env : Env) (t : Token) (args : List Bytes) (c : ℕ) : ℕ :=
  if t.op.kind.isCursor then cursorTo t c else c + fieldLen env t args

def reach (env : Env) : List Token → List Bytes → ℕ → ℕ → ℕ
  | [], _, _, u => u
  | t :: rest, args, c, u =>
    reach env rest (args.drop (argsUsed t)) (nextCursor env t args c)
      (max u (nextCursor env t args c))

theorem le_reach (env : Env) (toks : List Token) (args : List Bytes) (c u : ℕ) :
    u ≤ reach env toks args c u := by
  induction toks generalizing args c u with
  | nil => exact le_rfl
  | cons t rest ih => exact (le_max_left _ _).trans (ih _ _ _)

theorem Kind.not_isCursor {kind : Kind} (h : kind.isCursor = false) :
    kind ≠ .pad ∧ kind ≠ .back ∧ kind ≠ .seek := by
  refine ⟨?_, ?_, ?_⟩
  all_goals
    rintro rfl
    cases h

/-! ## Fields have these lengths -/

theorem length_flatMap {α : Type} {f : α → Bytes} {w : ℕ} (hf : ∀ a, (f a).length = w)
    (as : List α) : (as.flatMap f).length = as.length * w := by
  induction as with
  | nil => simp
  | cons a as ih => rw [flatMap_cons, length_append, hf, ih, length_cons,
      Nat.succ_mul, Nat.add_comm]

theorem Taken.length {azElem : List Bytes} (h : Taken t args azElem)
    (hkind : t.op.kind = .int ∨ t.op.kind.isFloat = true) :
    azElem.length = extent t args := by
  rw [Taken] at h
  rw [extent]
  split_ifs at h ⊢ with hstar
  · obtain ⟨zList, rest, rfl, hsplit⟩ := h
    have hlen : listLength zList = azElem.length := by rw [listLength, hsplit]
    rcases hkind with hkind | hkind
    · rw [hkind]
      exact hlen.symm
    · rcases float_or_double hkind with hkind | hkind
      · rw [hkind]
        exact hlen.symm
      · rw [hkind]
        exact hlen.symm
  · exact h.2

variable {nWidth : ℕ} {z : Bytes}

theorem length_wideField {v : ℤ} (h : wideField nWidth v = .ok z) : z.length = nWidth := by
  rw [wideField] at h
  split_ifs at h
  · rw [← Except.ok.inj h, length_append, length_replicate, length_storeBe]
    omega
  · rw [← Except.ok.inj h, length_append, length_replicate, length_storeBe]
    omega
  · rw [← Except.ok.inj h, length_drop, length_storeBe]
    omega

theorem length_wideBytes {bBigEndian : Bool} {zArg : Bytes}
    (h : wideBytes nWidth bBigEndian zArg = .ok z) : z.length = nWidth := by
  obtain ⟨v, -, h⟩ := bind_eq_ok.mp h
  obtain ⟨zBuf, hbuf, rfl⟩ := map_eq_ok.mp h
  split_ifs
  · exact length_wideField hbuf
  · rw [length_reverse, length_wideField hbuf]

theorem length_bigintField (hmp : env.mp.Exact) {zArg : Bytes}
    (h : bigintField env t nWidth zArg = .ok z) : z.length = nWidth := by
  rw [bigintField] at h
  split_ifs at h
  · exact Bigint.length_toTwosComplement hmp h
  · exact length_wideBytes h

theorem intWidth_of_mem {native : Order} (hmem : t.op ∈ aBinaryOps native)
    (hkind : t.op.kind = .int) : IntWidth t.op.nWidth :=
  (width_cases hmem).1 hkind

theorem FieldOf.length (hmp : env.mp.Exact) (hmem : t.op ∈ aBinaryOps env.native)
    (h : FieldOf env t args z) : z.length = fieldLen env t args := by
  cases h with
  | ints hkind htaken hread =>
    rw [length_flatMap (length_intBytes (intWidth_of_mem hmem hkind)), ← hread.length_eq,
      htaken.length (Or.inl hkind)]
    simp only [fieldLen, elemWidth, hkind]
  | floats hkind htaken hread =>
    rw [length_flatMap (length_floatBytes _ _ _), ← hread.length_eq, htaken.length (Or.inr hkind)]
    rcases float_or_double hkind with hkind | hkind
    · simp only [fieldLen, elemWidth, hkind]
      rfl
    · simp only [fieldLen, elemWidth, hkind]
      rfl
  | str hkind hargs =>
    subst hargs
    rw [length_strBytes]
    rcases hkind with hkind | hkind
    · simp only [fieldLen, extent, hkind, headD_cons]
    · simp only [fieldLen, extent, hkind, headD_cons]
  | digits hkind hargs =>
    subst hargs
    rcases hcases : t.op.kind <;> rw [hcases] at hkind <;> cases hkind <;>
      simp only [fieldLen, extent, hcases, headD_cons, length_bitsBytes, length_hexBytes]
  | bigint hkind hargs hwidth hfield =>
    subst hargs
    rw [length_bigintField hmp hfield]
    simp only [fieldLen, hkind, bigintLen, headD_cons, hwidth]

/-- What a token that is carried out does to the cursor, the result and the arguments. -/
structure Follows (env : Env) (t : Token) (s s' : FormatState) : Prop where
  iCur : s'.out.iCur = nextCursor env t s.args s.out.iCur
  length : s'.out.zBuf.length = max s.out.zBuf.length (nextCursor env t s.args s.out.iCur)
  args : s'.args = s.args.drop (argsUsed t)
  star : t.bStar = true → t.op.kind ≠ .pad ∧ t.op.kind ≠ .seek
  field : t.op.kind.isCursor = false → ∃ z, FieldOf env t s.args z

variable {s s' : FormatState}

theorem Follows.within (h : Follows env t s s') : s'.out.Within := by
  rw [FormatBuf.Within, h.iCur, h.length]
  exact le_max_right _ _

theorem formatToken_follows (hmp : env.mp.Exact) (hmem : t.op ∈ aBinaryOps env.native)
    (hs : s.out.Within) (h : (formatToken env t s).result = .ok s') : Follows env t s s' := by
  rcases hcursor : t.op.kind.isCursor with _ | _
  · obtain ⟨z, hfield, hwrote⟩ := formatToken_value hs hcursor h
    have hnext : nextCursor env t s.args s.out.iCur = s.out.iCur + z.length := by
      rw [nextCursor, hcursor, if_neg Bool.false_ne_true, hfield.length hmp hmem]
    refine ⟨?_, ?_, hwrote.args, fun _ => ?_, fun _ => ⟨z, hfield⟩⟩
    · rw [hnext, hwrote.out.2, FormatBuf.store_iCur]
    · rw [hnext, hwrote.out.1, FormatBuf.store_length hs]
    · exact ⟨(Kind.not_isCursor hcursor).1, (Kind.not_isCursor hcursor).2.2⟩
  · have hmoved := formatToken_cursor hs hmem hcursor h
    have hnext : nextCursor env t s.args s.out.iCur = cursorTo t s.out.iCur := by
      rw [nextCursor, hcursor, if_pos rfl]
    have hused : argsUsed t = 0 := by
      rcases hcases : t.op.kind <;> rw [hcases] at hcursor <;> cases hcursor <;>
        simp only [argsUsed, hcases]
    refine ⟨?_, ?_, ?_, fun hstar => ?_, fun hvalue => ?_⟩
    · rw [hnext, hmoved.iCur]
    · rw [hnext, ← hmoved.iCur, hmoved.length]
    · rw [hmoved.args, hused, drop_zero]
    · rw [hmoved.star hstar]
      decide
    · rw [hcursor] at hvalue
      cases hvalue

theorem formatTokens_reach {toks : List Token} (hmp : env.mp.Exact)
    (htoks : ∀ t ∈ toks, t.Valid env.native) (hs : s.out.Within)
    (h : (formatTokens env toks s).result = .ok s') :
    s'.out.zBuf.length = reach env toks s.args s.out.iCur s.out.zBuf.length := by
  induction toks generalizing s with
  | nil =>
    cases h
    rfl
  | cons t rest ih =>
    rw [formatTokens] at h
    obtain ⟨s₁, hstep, h⟩ := Traced.bind_eq_ok.mp h
    have hfollows := formatToken_follows hmp (htoks t mem_cons_self).mem hs hstep
    rw [ih (fun t ht => htoks t (mem_cons_of_mem _ ht)) hfollows.within h, reach,
      hfollows.iCur, hfollows.length, hfollows.args]

end Binary

end Th8
