import Mathlib.Data.List.Forall2
import Th8.Binary.Format

/-!
# What a token of `binary format` does

A value specifier that is carried out puts a field at the cursor and takes the arguments of
the field; the other specifiers move the cursor.  `FieldOf` says which bytes a field has.
-/

namespace Th8

open Support List Traced
open Bigint (MpLib)

namespace Binary

variable {env : Env} {t : Token} {s s' : FormatState} {out out' : FormatBuf}

/-! ## The buffer -/

def FormatBuf.Within (out : FormatBuf) : Prop := out.iCur ≤ out.zBuf.length

def FormatBuf.Same (out out' : FormatBuf) : Prop := out'.zBuf = out.zBuf ∧ out'.iCur = out.iCur

theorem reserveAt_ok {iPos nMore : ℕ} (h : (reserveAt out iPos nMore).result = .ok out') :
    out'.zBuf = out.zBuf ++ List.replicate (iPos - out.zBuf.length) 0 ∧ out'.iCur = out.iCur := by
  rw [reserveAt] at h
  split_ifs at h with hover hroom
  · cases h
  · rcases hgrow : grow out.nAlloc (iPos + nMore) with _ | nNew
    · rw [hgrow] at h
      cases h
    · rw [hgrow] at h
      cases h
      exact ⟨rfl, rfl⟩
  · cases h
    exact ⟨rfl, rfl⟩

theorem reserve_ok {nMore : ℕ} (hout : out.Within) (h : (reserve out nMore).result = .ok out') :
    out.Same out' := by
  obtain ⟨hbuf, hcur⟩ := reserveAt_ok h
  rw [Nat.sub_eq_zero_of_le hout, replicate_zero, append_nil] at hbuf
  exact ⟨hbuf, hcur⟩

namespace FormatBuf

@[simp] theorem store_iCur (out : FormatBuf) (z : Bytes) :
    (out.store z).iCur = out.iCur + z.length := rfl

theorem store_length (hout : out.Within) (z : Bytes) :
    (out.store z).zBuf.length = max out.zBuf.length (out.iCur + z.length) := by
  have hcur : out.iCur ≤ out.zBuf.length := hout
  simp only [store, length_append, length_take, length_drop]
  omega

theorem within_store (hout : out.Within) (z : Bytes) : (out.store z).Within := by
  rw [Within, store_length hout]
  exact le_max_right _ _

theorem store_nil (out : FormatBuf) : out.store [] = out := by
  obtain ⟨zBuf, iCur, nAlloc⟩ := out
  simp [store]

theorem store_store (hout : out.Within) (a b : Bytes) :
    (out.store a).store b = out.store (a ++ b) := by
  have hcur : out.iCur ≤ out.zBuf.length := hout
  have htake : (out.zBuf.take out.iCur).length = out.iCur := length_take_of_le hcur
  have hlen : (out.zBuf.take out.iCur ++ a).length = out.iCur + a.length := by
    rw [length_append, htake]
  simp only [store, length_append, FormatBuf.mk.injEq, and_true]
  refine ⟨?_, Nat.add_assoc _ _ _⟩
  rw [take_left' hlen, ← drop_drop, drop_left' hlen, drop_drop,
    Nat.add_assoc, append_assoc, append_assoc, append_assoc, append_assoc]

theorem Same.store (h : out.Same out') (z : Bytes) : (out.store z).Same (out'.store z) := by
  obtain ⟨hbuf, hcur⟩ := h
  simp only [Same, FormatBuf.store, hbuf, hcur, and_self]

theorem Same.within (h : out.Same out') (hout : out.Within) : out'.Within := by
  rw [Within, h.1, h.2]
  exact hout

end FormatBuf

/-- The bytes are put at the cursor of the buffer that has room for them. -/
def Placed (out out' : FormatBuf) (z : Bytes) : Prop :=
  ∃ out₁, (reserve out z.length).result = .ok out₁ ∧ out' = out₁.store z

variable {z : Bytes}

theorem Placed.same (h : Placed out out' z) (hout : out.Within) : (out.store z).Same out' := by
  obtain ⟨out₁, hreserve, rfl⟩ := h
  exact (reserve_ok hout hreserve).store z

def Kind.digits : Kind → Option (Bool × ℕ × (ℕ → Bytes → Bytes))
  | .bitsLo => some (false, 8, bitsBytes false)
  | .bitsHi => some (true, 8, bitsBytes true)
  | .hexLo => some (false, 2, hexBytes false)
  | .hexHi => some (true, 2, hexBytes true)
  | _ => none

def Kind.isCursor (kind : Kind) : Bool := kind == .pad || kind == .back || kind == .seek

def Kind.isFloat (kind : Kind) : Bool := kind == .float || kind == .double

theorem float_or_double {kind : Kind} (h : kind.isFloat = true) :
    kind = .float ∨ kind = .double := by
  simpa [Kind.isFloat] using h

def ListArg (args azElem : List Bytes) : Prop :=
  ∃ zList rest, args = zList :: rest ∧ splitArg zList = .ok azElem

def Taken (t : Token) (args azElem : List Bytes) : Prop :=
  if t.bStar then ListArg args azElem else azElem = args.take t.count ∧ azElem.length = t.count

inductive FieldOf (env : Env) (t : Token) (args : List Bytes) : Bytes → Prop
  | ints (hkind : t.op.kind = .int) {azElem : List Bytes} (htaken : Taken t args azElem)
      {vs : List ℤ}
      (hread : List.Forall₂ (fun z v => (parseTrunc env z).result = .ok v) azElem vs) :
      FieldOf env t args (vs.flatMap (intBytes t.op))
  | floats (hkind : t.op.kind.isFloat = true) {azElem : List Bytes}
      (htaken : Taken t args azElem) {ds : List env.floats.Double}
      (hread : List.Forall₂ (fun z d => env.floats.toDouble z = .ok d) azElem ds) :
      FieldOf env t args (ds.flatMap (floatBytes env.floats (t.op.kind == .float) t.op.eOrder))
  | str (hkind : t.op.kind = .strNul ∨ t.op.kind = .strSp) {zSrc : Bytes} {rest : List Bytes}
      (hargs : args = zSrc :: rest) :
      FieldOf env t args (strBytes t.op.kind (if t.bStar then zSrc.length else t.count) zSrc)
  | digits {hiFirst : Bool} {nPer : ℕ} {bytes : ℕ → Bytes → Bytes}
      (hkind : t.op.kind.digits = some (hiFirst, nPer, bytes)) {zSrc : Bytes}
      {rest : List Bytes} (hargs : args = zSrc :: rest) :
      FieldOf env t args (bytes (if t.bStar then zSrc.length else t.count) zSrc)
  | bigint (hkind : t.op.kind = .bigintFixed) {zArg : Bytes} {rest : List Bytes}
      (hargs : args = zArg :: rest) {nWidth : ℕ}
      (hwidth : bigintWidth env t zArg = .ok nWidth) {zField : Bytes}
      (hfield : bigintField env t nWidth zArg = .ok zField) : FieldOf env t args zField

def argsUsed (t : Token) : ℕ :=
  match t.op.kind with
  | .int | .float | .double => if t.bStar then 1 else t.count
  | .pad | .back | .seek => 0
  | _ => 1

structure Wrote (t : Token) (s s' : FormatState) (z : Bytes) : Prop where
  out : (s.out.store z).Same s'.out
  args : s'.args = s.args.drop (argsUsed t)

/-! ## Loops -/

theorem takeArg_ok {p : Bytes × FormatState} (h : (takeArg s).result = .ok p) :
    s.args = p.1 :: p.2.args ∧ p.2.out = s.out := by
  rw [takeArg] at h
  split at h
  · cases h
  · rename_i z rest hargs
    cases h
    exact ⟨hargs, rfl⟩

variable {count : ℕ}

section

variable (hs : s.out.Within)

include hs

theorem formatInts_ok (h : (formatInts env t.op count s).result = .ok s') :
    ∃ vs, List.Forall₂ (fun z v => (parseTrunc env z).result = .ok v) (s.args.take count) vs ∧
      (s.args.take count).length = count ∧
      s' = ⟨s.out.store (vs.flatMap (intBytes t.op)), s.args.drop count⟩ := by
  induction count generalizing s with
  | zero =>
    cases h
    exact ⟨[], List.Forall₂.nil, rfl, by rw [flatMap_nil, FormatBuf.store_nil]; rfl⟩
  | succ count ih =>
    rw [formatInts] at h
    obtain ⟨⟨zArg, s₁⟩, harg, h⟩ := bind_eq_ok.mp h
    obtain ⟨v, hv, h⟩ := bind_eq_ok.mp h
    obtain ⟨hargs, hout⟩ := takeArg_ok harg
    rw [hout] at h
    obtain ⟨vs, hread, hlen, rfl⟩ := ih (FormatBuf.within_store hs _) h
    refine ⟨v :: vs, ?_, ?_, ?_⟩
    · rw [hargs, take_succ_cons]
      exact List.Forall₂.cons hv hread
    · rw [hargs, take_succ_cons, length_cons, hlen]
    · rw [hargs, drop_succ_cons, flatMap_cons, FormatBuf.store_store hs]

theorem formatIntList_ok {azElem : List Bytes} (h :
    (formatIntList env t.op azElem s).result = .ok s') :
    ∃ vs, List.Forall₂ (fun z v => (parseTrunc env z).result = .ok v) azElem vs ∧
      s' = ⟨s.out.store (vs.flatMap (intBytes t.op)), s.args⟩ := by
  induction azElem generalizing s with
  | nil =>
    cases h
    exact ⟨[], List.Forall₂.nil, by rw [flatMap_nil, FormatBuf.store_nil]⟩
  | cons zElem rest ih =>
    rw [formatIntList] at h
    obtain ⟨-, -, h⟩ := bind_eq_ok.mp h
    obtain ⟨v, hv, h⟩ := bind_eq_ok.mp h
    obtain ⟨vs, hread, rfl⟩ := ih (FormatBuf.within_store hs _) h
    refine ⟨v :: vs, List.Forall₂.cons hv hread, ?_⟩
    rw [flatMap_cons, FormatBuf.store_store hs]

theorem formatFloats_ok {bSingle : Bool} {eOrder : Order} (h :
    (formatFloats env bSingle eOrder count s).result = .ok s') :
    ∃ ds, List.Forall₂ (fun z d => env.floats.toDouble z = .ok d) (s.args.take count) ds ∧
      (s.args.take count).length = count ∧
      s' = ⟨s.out.store (ds.flatMap (floatBytes env.floats bSingle eOrder)),
        s.args.drop count⟩ := by
  induction count generalizing s with
  | zero =>
    cases h
    exact ⟨[], List.Forall₂.nil, rfl, by rw [flatMap_nil, FormatBuf.store_nil]; rfl⟩
  | succ count ih =>
    rw [formatFloats] at h
    obtain ⟨⟨zArg, s₁⟩, harg, h⟩ := bind_eq_ok.mp h
    obtain ⟨d, hd, h⟩ := bind_eq_ok.mp h
    obtain ⟨hargs, hout⟩ := takeArg_ok harg
    rw [hout] at h
    obtain ⟨ds, hread, hlen, rfl⟩ := ih (FormatBuf.within_store hs _) h
    refine ⟨d :: ds, ?_, ?_, ?_⟩
    · rw [hargs, take_succ_cons]
      exact List.Forall₂.cons hd hread
    · rw [hargs, take_succ_cons, length_cons, hlen]
    · rw [hargs, drop_succ_cons, flatMap_cons, FormatBuf.store_store hs]

theorem formatFloatList_ok {bSingle : Bool} {eOrder : Order} {azElem : List Bytes} (h :
    (formatFloatList env bSingle eOrder azElem s).result = .ok s') :
    ∃ ds, List.Forall₂ (fun z d => env.floats.toDouble z = .ok d) azElem ds ∧
      s' = ⟨s.out.store (ds.flatMap (floatBytes env.floats bSingle eOrder)), s.args⟩ := by
  induction azElem generalizing s with
  | nil =>
    cases h
    exact ⟨[], List.Forall₂.nil, by rw [flatMap_nil, FormatBuf.store_nil]⟩
  | cons zElem rest ih =>
    rw [formatFloatList] at h
    obtain ⟨-, -, h⟩ := bind_eq_ok.mp h
    obtain ⟨d, hd, h⟩ := bind_eq_ok.mp h
    obtain ⟨ds, hread, rfl⟩ := ih (FormatBuf.within_store hs _) h
    refine ⟨d :: ds, List.Forall₂.cons hd hread, ?_⟩
    rw [flatMap_cons, FormatBuf.store_store hs]

end

theorem takeList_ok {nWidth : ℕ} {p : List Bytes × FormatState}
    (h : (takeList nWidth s).result = .ok p) :
    ListArg s.args p.1 ∧ (∃ nReserve, safeMulSize p.1.length nWidth = some nReserve ∧
      (reserve s.out nReserve).result = .ok p.2.out) ∧ p.2.args = s.args.drop 1 := by
  rw [takeList] at h
  obtain ⟨⟨zList, s₁⟩, harg, h⟩ := bind_eq_ok.mp h
  obtain ⟨azElem, hsplit, h⟩ := bind_eq_ok.mp h
  obtain ⟨hargs, hout⟩ := takeArg_ok harg
  rcases hsize : safeMulSize azElem.length nWidth with _ | nReserve
  · rw [hsize] at h
    cases h
  · rw [hsize] at h
    obtain ⟨out, hreserve, h⟩ := bind_eq_ok.mp h
    cases h
    rw [hout] at hreserve
    refine ⟨⟨zList, s₁.args, hargs, hsplit⟩, ⟨nReserve, hsize, hreserve⟩, ?_⟩
    rw [hargs]
    rfl

theorem takeRoom_ok {nWidth : ℕ} (h : (takeRoom count nWidth s).result = .ok s') :
    (reserve s.out (count * nWidth)).result = .ok s'.out ∧ s'.args = s.args := by
  rw [takeRoom] at h
  split_ifs at h
  · cases h
  · obtain ⟨out, hreserve, h⟩ := bind_eq_ok.mp h
    cases h
    exact ⟨hreserve, rfl⟩

theorem formatDigits_ok {nPoll : ℕ} {bytes : ℕ → Bytes → Bytes}
    (h : (formatDigits t nPoll bytes s).result = .ok s') :
    ∃ zSrc rest, s.args = zSrc :: rest ∧ s'.args = rest ∧
      Placed s.out s'.out (bytes (if t.bStar then zSrc.length else t.count) zSrc) := by
  rw [formatDigits] at h
  obtain ⟨⟨zSrc, s₁⟩, harg, h⟩ := bind_eq_ok.mp h
  obtain ⟨hargs, hout⟩ := takeArg_ok harg
  obtain ⟨out, hreserve, h⟩ := bind_eq_ok.mp h
  obtain ⟨-, -, h⟩ := bind_eq_ok.mp h
  cases h
  rw [hout] at hreserve
  exact ⟨zSrc, s₁.args, hargs, rfl, out, hreserve, rfl⟩

theorem formatBigint_ok (h : (formatBigint env t s).result = .ok s') :
    ∃ zArg rest nWidth zField, s.args = zArg :: rest ∧ s'.args = rest ∧
      bigintWidth env t zArg = .ok nWidth ∧ bigintField env t nWidth zArg = .ok zField ∧
      ∃ out, (reserve s.out nWidth).result = .ok out ∧ s'.out = out.store zField := by
  rw [formatBigint] at h
  obtain ⟨⟨zArg, s₁⟩, harg, h⟩ := bind_eq_ok.mp h
  obtain ⟨hargs, hout⟩ := takeArg_ok harg
  obtain ⟨nWidth, hwidth, h⟩ := bind_eq_ok.mp h
  obtain ⟨out, hreserve, h⟩ := bind_eq_ok.mp h
  obtain ⟨zField, hfield, h⟩ := bind_eq_ok.mp h
  obtain ⟨-, -, h⟩ := bind_eq_ok.mp h
  cases h
  rw [hout] at hreserve
  exact ⟨zArg, s₁.args, nWidth, zField, hargs, rfl, hwidth, hfield, out, hreserve, rfl⟩

/-! ## Tokens -/

theorem Wrote.of_args {n : ℕ} (hn : argsUsed t = n) (hout : (s.out.store z).Same s'.out)
    (hargs : s'.args = s.args.drop n) : Wrote t s s' z :=
  ⟨hout, by rw [hn]; exact hargs⟩

theorem formatToken_int (hs : s.out.Within) (hkind : t.op.kind = .int)
    (h : (formatToken env t s).result = .ok s') :
    ∃ z, FieldOf env t s.args z ∧ Wrote t s s' z := by
  have hused : argsUsed t = if t.bStar then 1 else t.count := by
    simp only [argsUsed, hkind]
  simp only [formatToken, hkind, formatInt] at h
  split_ifs at h with hrefused hstar
  · cases h
  · obtain ⟨⟨azElem, s₁⟩, hlist, h⟩ := bind_eq_ok.mp h
    obtain ⟨harg, ⟨_, -, hreserve⟩, hargs⟩ := takeList_ok hlist
    have hsame := reserve_ok hs hreserve
    obtain ⟨vs, hread, rfl⟩ := formatIntList_ok (hsame.within hs) h
    rw [if_pos hstar] at hused
    refine ⟨_, .ints hkind ?_ hread, .of_args hused (hsame.store _) hargs⟩
    rw [Taken, if_pos hstar]
    exact harg
  · obtain ⟨s₁, hroom, h⟩ := bind_eq_ok.mp h
    obtain ⟨hreserve, hargs⟩ := takeRoom_ok hroom
    have hsame := reserve_ok hs hreserve
    obtain ⟨vs, hread, hlen, rfl⟩ := formatInts_ok (hsame.within hs) h
    rw [hargs] at hread hlen
    rw [if_neg hstar] at hused
    refine ⟨_, .ints hkind ?_ hread, .of_args hused (hsame.store _) (by rw [hargs])⟩
    rw [Taken, if_neg hstar]
    exact ⟨rfl, hlen⟩

theorem formatToken_float (hs : s.out.Within) (hkind : t.op.kind.isFloat = true)
    (h : (formatToken env t s).result = .ok s') :
    ∃ z, FieldOf env t s.args z ∧ Wrote t s s' z := by
  have hcases := float_or_double hkind
  have hrun : argsUsed t = (if t.bStar then 1 else t.count) ∧ formatToken env t s =
      if t.bStar && !t.op.bStarFmt then Traced.fail errStarFormat else formatFloat env t s := by
    rcases hcases with hkind | hkind
    · exact ⟨by simp only [argsUsed, hkind], by simp only [formatToken, hkind]⟩
    · exact ⟨by simp only [argsUsed, hkind], by simp only [formatToken, hkind]⟩
  have hused := hrun.1
  rw [hrun.2, formatFloat] at h
  split_ifs at h with hrefused hstar
  · cases h
  · obtain ⟨⟨azElem, s₁⟩, hlist, h⟩ := bind_eq_ok.mp h
    obtain ⟨harg, ⟨_, -, hreserve⟩, hargs⟩ := takeList_ok hlist
    have hsame := reserve_ok hs hreserve
    obtain ⟨ds, hread, rfl⟩ := formatFloatList_ok (hsame.within hs) h
    rw [if_pos hstar] at hused
    refine ⟨_, .floats hkind ?_ hread, .of_args hused (hsame.store _) hargs⟩
    rw [Taken, if_pos hstar]
    exact harg
  · obtain ⟨s₁, hroom, h⟩ := bind_eq_ok.mp h
    obtain ⟨hreserve, hargs⟩ := takeRoom_ok hroom
    have hsame := reserve_ok hs hreserve
    obtain ⟨ds, hread, hlen, rfl⟩ := formatFloats_ok (hsame.within hs) h
    rw [hargs] at hread hlen
    rw [if_neg hstar] at hused
    refine ⟨_, .floats hkind ?_ hread, .of_args hused (hsame.store _) (by rw [hargs])⟩
    rw [Taken, if_neg hstar]
    exact ⟨rfl, hlen⟩

theorem Wrote.of_one {zArg : Bytes} {rest : List Bytes} (hused : argsUsed t = 1)
    (hargs : s.args = zArg :: rest) (hrest : s'.args = rest) (hout : (s.out.store z).Same s'.out) :
    Wrote t s s' z :=
  .of_args hused hout (by rw [hargs, hrest]; rfl)

section

variable (hs : s.out.Within)

include hs

theorem formatToken_str (hkind : t.op.kind = .strNul ∨ t.op.kind = .strSp)
    (h : (formatToken env t s).result = .ok s') :
    ∃ z, FieldOf env t s.args z ∧ Wrote t s s' z := by
  have hused : argsUsed t = 1 := by
    rcases hkind with hkind | hkind
    · simp only [argsUsed, hkind]
    · simp only [argsUsed, hkind]
  have hrun : formatToken env t s =
      if t.bStar && !t.op.bStarFmt then Traced.fail errStarFormat
      else formatDigits t 0 (strBytes t.op.kind) s := by
    rcases hkind with hkind | hkind
    · simp only [formatToken, hkind]
    · simp only [formatToken, hkind]
  rw [hrun] at h
  split_ifs at h
  · cases h
  · obtain ⟨zSrc, rest, hargs, hrest, hout⟩ := formatDigits_ok h
    exact ⟨_, .str hkind hargs, .of_one hused hargs hrest (hout.same hs)⟩

theorem formatToken_digits {hiFirst : Bool} {nPer : ℕ}
    {bytes : ℕ → Bytes → Bytes} (hkind : t.op.kind.digits = some (hiFirst, nPer, bytes))
    (h : (formatToken env t s).result = .ok s') :
    ∃ z, FieldOf env t s.args z ∧ Wrote t s s' z := by
  have hrun : argsUsed t = 1 ∧ formatToken env t s =
      if t.bStar && !t.op.bStarFmt then Traced.fail errStarFormat
      else formatDigits t nPollDigits bytes s := by
    rcases hcases : t.op.kind <;> rw [hcases] at hkind <;> cases hkind <;>
      exact ⟨by simp only [argsUsed, hcases], by simp only [formatToken, hcases]⟩
  rw [hrun.2] at h
  split_ifs at h
  · cases h
  · obtain ⟨zSrc, rest, hargs, hrest, hout⟩ := formatDigits_ok h
    exact ⟨_, .digits hkind hargs, .of_one hrun.1 hargs hrest (hout.same hs)⟩

theorem formatToken_bigint (hkind : t.op.kind = .bigintFixed)
    (h : (formatToken env t s).result = .ok s') :
    ∃ z, FieldOf env t s.args z ∧ Wrote t s s' z := by
  have hused : argsUsed t = 1 := by simp only [argsUsed, hkind]
  simp only [formatToken, hkind] at h
  split_ifs at h
  · cases h
  · obtain ⟨zArg, rest, nWidth, zField, hargs, hrest, hwidth, hfield, out, hreserve, hout⟩ :=
      formatBigint_ok h
    exact ⟨_, .bigint hkind hargs hwidth hfield,
      .of_one hused hargs hrest (hout ▸ (reserve_ok hs hreserve).store _)⟩

theorem formatToken_value (hvalue : t.op.kind.isCursor = false)
    (h : (formatToken env t s).result = .ok s') :
    ∃ z, FieldOf env t s.args z ∧ Wrote t s s' z := by
  rcases hkind : t.op.kind with _ | _ | _ | _ | _ | _ | _ | _ | _ | _ | _ | _ | _
  case int => exact formatToken_int hs hkind h
  case strNul => exact formatToken_str hs (Or.inl hkind) h
  case strSp => exact formatToken_str hs (Or.inr hkind) h
  case bitsLo => exact formatToken_digits hs (by rw [hkind]; rfl) h
  case bitsHi => exact formatToken_digits hs (by rw [hkind]; rfl) h
  case hexLo => exact formatToken_digits hs (by rw [hkind]; rfl) h
  case hexHi => exact formatToken_digits hs (by rw [hkind]; rfl) h
  case float => exact formatToken_float hs (by rw [hkind]; rfl) h
  case double => exact formatToken_float hs (by rw [hkind]; rfl) h
  case bigintFixed => exact formatToken_bigint hs hkind h
  case pad => rw [hkind] at hvalue; cases hvalue
  case back => rw [hkind] at hvalue; cases hvalue
  case seek => rw [hkind] at hvalue; cases hvalue

end

/-- Where a specifier without a value moves the cursor of `binary format`. -/
def cursorTo (t : Token) (c : ℕ) : ℕ :=
  match t.op.kind with
  | .back => if t.bStar then 0 else c - t.count
  | .seek => t.count
  | _ => c + t.count

structure Moved (t : Token) (s s' : FormatState) : Prop where
  iCur : s'.out.iCur = cursorTo t s.out.iCur
  length : s'.out.zBuf.length = max s.out.zBuf.length s'.out.iCur
  args : s'.args = s.args
  star : t.bStar = true → t.op.kind = .back

theorem formatToken_cursor (hs : s.out.Within) (hmem : t.op ∈ aBinaryOps env.native)
    (hcursor : t.op.kind.isCursor = true) (h : (formatToken env t s).result = .ok s') :
    Moved t s s' := by
  have hstarred := (width_cases hmem).2
  rcases hkind : t.op.kind with _ | _ | _ | _ | _ | _ | _ | _ | _ | _ | _ | _ | _
  case pad =>
    simp only [formatToken, hkind] at h
    split_ifs at h with hrefused
    · cases h
    · obtain ⟨out, hreserve, h⟩ := bind_eq_ok.mp h
      cases h
      have hsame := reserve_ok hs hreserve
      refine ⟨?_, ?_, rfl, fun hstar => ?_⟩
      · simp [cursorTo, hkind, hsame.2]
      · rw [FormatBuf.store_length (hsame.within hs), hsame.1]
        rfl
      · rw [hstar, hstarred.mpr (Or.inl hkind)] at hrefused
        exact absurd rfl hrefused
  case back =>
    simp only [formatToken, hkind] at h
    split_ifs at h with hrefused
    · cases h
    · cases h
      have hcur : s.out.iCur ≤ s.out.zBuf.length := hs
      refine ⟨?_, ?_, rfl, fun _ => hkind⟩
      · simp only [cursorTo, hkind, backedUp]
        split_ifs
        · rfl
        · omega
        · rfl
      · refine (max_eq_left ?_).symm
        dsimp only [backedUp]
        split_ifs
        · exact Nat.zero_le _
        · exact Nat.zero_le _
        · omega
  case seek =>
    simp only [formatToken, hkind] at h
    split_ifs at h with hrefused
    · cases h
    · obtain ⟨out, hreserve, h⟩ := bind_eq_ok.mp h
      cases h
      obtain ⟨hbuf, -⟩ := reserveAt_ok hreserve
      refine ⟨?_, ?_, rfl, fun hstar => ?_⟩
      · simp only [cursorTo, hkind]
      · dsimp only
        rw [hbuf, length_append, length_replicate]
        omega
      · rw [hstar, hstarred.mpr (Or.inr hkind)] at hrefused
        exact absurd rfl hrefused
  all_goals
    rw [hkind] at hcursor
    cases hcursor

end Binary

end Th8
