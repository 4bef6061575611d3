import Th8.Binary.Numbers

/-!
# The values that come back

A format string of value specifiers with counts takes arguments to bytes and bytes to values.
What is assigned are the arguments in a canonical form, in order.
-/

namespace Th8

open Support List Nat
open Bigint (MpLib)

namespace Binary

variable {env : Env} {t : Token} {toks : List Token} {args names : List Bytes}

/-- A string in a field of `count` bytes. -/
def fitted (pad : Byte) (count : ℕ) (zSrc : Bytes) : Bytes :=
  zSrc.take count ++ List.replicate (count - zSrc.length) pad

/-- The bits that a string of `0` and `1` stands for, as digits. -/
def bitText (count : ℕ) (zSrc : Bytes) : Bytes :=
  (List.range count).map fun i => 0x30 + UInt8.ofNat (digitAt bitValue zSrc i)

def hexText (count : ℕ) (zSrc : Bytes) : Bytes :=
  (List.range count).map fun i => hexChar (digitAt hexValue zSrc i)

inductive Canonical (env : Env) (t : Token) (args : List Bytes) : List Bytes → Prop
  | ints (hkind : t.op.kind = .int) (hlen : (args.take t.count).length = t.count) {vs : List ℤ}
      (hread : List.Forall₂ (ReadsAs env) (args.take t.count) vs) :
      Canonical env t args (vs.map fun v => decimalText (wrap (8 * t.op.nWidth) v))
  | strNul (hkind : t.op.kind = .strNul) {zSrc : Bytes} {rest : List Bytes}
      (hargs : args = zSrc :: rest) : Canonical env t args [fitted 0 t.count zSrc]
  | strSp (hkind : t.op.kind = .strSp) {zSrc : Bytes} {rest : List Bytes}
      (hargs : args = zSrc :: rest) :
      Canonical env t args [(fitted 0x20 t.count zSrc).rdropWhile fun c => c == 0x20 || c == 0]
  | bits (hkind : t.op.kind = .bitsLo ∨ t.op.kind = .bitsHi) {zSrc : Bytes}
      {rest : List Bytes} (hargs : args = zSrc :: rest) :
      Canonical env t args [bitText t.count zSrc]
  | hex (hkind : t.op.kind = .hexLo ∨ t.op.kind = .hexHi) {zSrc : Bytes}
      {rest : List Bytes} (hargs : args = zSrc :: rest) :
      Canonical env t args [hexText t.count zSrc]
  | bigint (hkind : t.op.kind = .bigintFixed) {zArg : Bytes} {rest : List Bytes}
      (hargs : args = zArg :: rest) {v : ℤ} (hread : FieldInteger env zArg v) :
      Canonical env t args [decimalText v]

inductive AllCanonical (env : Env) : List Token → List Bytes → List Bytes → Prop
  | nil (args : List Bytes) : AllCanonical env [] args []
  | cons {t : Token} {rest : List Token} {args values more : List Bytes}
      (hfirst : Canonical env t args values)
      (hrest : AllCanonical env rest (args.drop (argsUsed t)) more) :
      AllCanonical env (t :: rest) args (values ++ more)

def Counted (t : Token) : Prop :=
  t.op.kind.isCursor = false ∧ t.op.kind.isFloat = false ∧ t.bStar = false

instance : Decidable (Counted t) := inferInstanceAs (Decidable (_ ∧ _))

/-! ## One field -/

theorem strBytes_eq (kind : Kind) (count : ℕ) (zSrc : Bytes) :
    strBytes kind count zSrc = fitted (strPadByte kind) count zSrc := by
  rw [strBytes, fitted]
  split_ifs with hlt
  · rw [take_of_length_le le_rfl, take_of_length_le hlt.le]
  · rw [Nat.sub_self, Nat.sub_eq_zero_of_le (not_lt.mp hlt)]

theorem textsOf_flatMap {op : OpDef} (hw : IntWidth op.nWidth) (vs : List ℤ) (rest : Bytes) :
    textsOf op.nWidth vs.length (fun p => decimalText (readInt p op))
        (vs.flatMap (intBytes op) ++ rest) =
      vs.map fun v => decimalText (wrap (8 * op.nWidth) v) := by
  induction vs with
  | nil => rfl
  | cons v vs ih =>
    rw [length_cons, textsOf_succ, flatMap_cons, append_assoc,
      readInt_intBytes hw, drop_left' (length_intBytes hw v), ih, map_cons]

theorem map_wrap_eq (hmp : env.mp.Exact) {w : ℕ} (hw : w ≤ 64) {azElem : List Bytes}
    {ws : List ℤ}
    (hread : List.Forall₂ (fun z v => (parseTrunc env z).result = .ok v) azElem ws) :
    ∃ vs, List.Forall₂ (ReadsAs env) azElem vs ∧
      (ws.map fun v => decimalText (wrap w v)) = vs.map fun v => decimalText (wrap w v) := by
  induction hread with
  | nil => exact ⟨[], .nil, rfl⟩
  | cons hfirst _ ih =>
    obtain ⟨v, hv, hmod⟩ := parseTrunc_ok hmp hfirst
    obtain ⟨vs, hvs, heq⟩ := ih
    exact ⟨v :: vs, .cons hv hvs, by
      rw [map_cons, map_cons, heq, wrap_of_emod hw hmod]⟩

theorem zip_append_drop {α β : Type} {as : List α} {bs : List β} (h : bs.length ≤ as.length)
    (bs' : List β) : as.zip (bs ++ bs') = as.zip bs ++ (as.drop bs.length).zip bs' := by
  induction bs generalizing as with
  | nil => simp
  | cons b bs ih =>
    rcases as with _ | ⟨a, as⟩
    · cases h
    · simp only [cons_append, zip_cons_cons, length_cons, drop_succ_cons, ih (le_of_succ_le_succ h)]

theorem zip_take {α β : Type} {as : List α} {bs : List β} :
    (as.take bs.length).zip bs = as.zip bs := by
  induction bs generalizing as with
  | nil => simp
  | cons b bs ih =>
    rcases as with _ | ⟨a, as⟩
    · rfl
    · simp only [length_cons, take_succ_cons, zip_cons_cons, ih]

/-- A field that has been read: the values are assigned to the variables in front, and the
cursor is behind the field. -/
def ReadsBack (env : Env) (t : Token) (args names : List Bytes) (zIn : Bytes) (c c' : ℕ) : Prop :=
  ∃ values, Canonical env t args values ∧ values.length ≤ needs t ∧
    ∀ n, Assigns (scanToken env zIn t ⟨c, names, n, false⟩) (names.zip values)
      ⟨c', names.drop values.length, n + values.length, false⟩

variable {zIn : Bytes} {c : ℕ}

theorem ReadsBack.of_one {zValue : Bytes} {c' : ℕ} (hvalue : t.op.kind.isCursor = false)
    (hnames : needs t ≤ names.length) (hcanonical : Canonical env t args [zValue])
    (hassigns : ∀ zVarName s, s.iCur = c → Assigns (scanValue env zIn t zVarName s) [(zVarName,
      zValue)] (s.assigned (c' - c))) (hle : c ≤ c') :
    ReadsBack env t args names zIn c c' := by
  obtain ⟨zVarName, rest, rfl⟩ := exists_cons_of_ne_nil
    (ne_nil_of_length_pos ((needs_pos hvalue).trans hnames))
  refine ⟨[zValue], hcanonical, needs_pos hvalue, fun n => ?_⟩
  rw [scanToken_value hvalue rfl]
  have hone := hassigns zVarName ⟨c, zVarName :: rest, n, false⟩ rfl
  rw [ScanState.assigned, Nat.add_sub_cancel' hle] at hone
  simpa using hone

structure FieldAt (zIn : Bytes) (c : ℕ) (z rest : Bytes) : Prop where
  drop : zIn.drop c = z ++ rest
  room : c + z.length ≤ zIn.length

variable {rest : Bytes}

theorem readsBack_ints (hmp : env.mp.Exact) (hmem : t.op ∈ aBinaryOps env.native)
    (hcounted : Counted t) (hkind : t.op.kind = .int) (hnames : needs t ≤ names.length)
    (hlen : (args.take t.count).length = t.count) {ws : List ℤ}
    (hread : List.Forall₂ (fun z v => (parseTrunc env z).result = .ok v) (args.take t.count) ws)
    (hat : FieldAt zIn c (ws.flatMap (intBytes t.op)) rest) :
    ReadsBack env t args names zIn c (c + (ws.flatMap (intBytes t.op)).length) := by
  have hw := intWidth_of_mem hmem hkind
  have hbits : 8 * t.op.nWidth ≤ 64 := by
    have hbounds := hw.bounds
    omega
  have hcount : ws.length = t.count := hread.length_eq.symm.trans hlen
  have hneeds : needs t = max 1 t.count := by
    simp only [needs, hkind, hcounted.2.2, Bool.false_eq_true, if_false]
  have henough : t.count ≤ names.length := ((le_max_right 1 t.count).trans hneeds.ge).trans hnames
  have hfield := length_flatMap (length_intBytes hw) ws
  have hroom := hat.room
  rw [hfield, hcount] at hroom ⊢
  obtain ⟨vs, hvs, hmap⟩ := map_wrap_eq hmp hbits hread
  have hvalues : (vs.map fun v => decimalText (wrap (8 * t.op.nWidth) v)).length = t.count := by
    rw [length_map, ← hvs.length_eq, hlen]
  have htexts := textsOf_flatMap hw ws rest
  rw [← hat.drop, hcount, hmap] at htexts
  obtain ⟨zVarName, names', hcons⟩ := exists_cons_of_ne_nil
    (ne_nil_of_length_pos ((needs_pos hcounted.1).trans hnames))
  refine ⟨_, .ints hkind hlen hvs, ?_, fun n => ?_⟩
  · rw [hvalues, hneeds]
    exact le_max_right _ _
  · have hscan := scanValues_assigns (s := ⟨c, names, n, false⟩)
      (fun p => decimalText (readInt p t.op)) henough hroom
    have hgo : scanToken env zIn t ⟨c, names, n, false⟩ = scanValues zIn t.op.nWidth
        (fun p => decimalText (readInt p t.op)) t.count ⟨c, names, n, false⟩ := by
      rw [scanToken_value hcounted.1 hcons]
      simp only [scanValue, hkind, scanNumbers, hcounted.2.2, Bool.false_eq_true, if_false]
    rw [hgo, hvalues, ← zip_take, hvalues, ← htexts]
    exact hscan

variable {more : List Bytes}

theorem readsBack_str (hcounted : Counted t) (hkind : t.op.kind = .strNul ∨ t.op.kind = .strSp)
    (hnames : needs t ≤ names.length) {zSrc : Bytes} (hargs : args = zSrc :: more)
    (hat : FieldAt zIn c (strBytes t.op.kind t.count zSrc) rest) :
    ReadsBack env t args names zIn c (c + (strBytes t.op.kind t.count zSrc).length) := by
  have hstar : ¬t.bStar = true := by simp [hcounted.2.2]
  have hlen := length_strBytes t.op.kind t.count zSrc
  have hroom := hat.room
  rw [hlen] at hroom ⊢
  have htake : (zIn.drop c).take t.count = fitted (strPadByte t.op.kind) t.count zSrc := by
    rw [hat.drop, take_left' hlen, strBytes_eq]
  have hcanonical : Canonical env t args
      [scannedStr t.op.kind (fitted (strPadByte t.op.kind) t.count zSrc)] := by
    rcases hkind with hkind | hkind
    · rw [hkind]
      exact .strNul hkind hargs
    · rw [hkind]
      exact .strSp hkind hargs
  refine .of_one hcounted.1 hnames hcanonical (fun zVarName s hcur => ?_) (le_add_right _ _)
  have hassigns := scanStr_assigns (s := s) (t := t) zIn zVarName
    (by rw [if_neg hstar, hcur]; exact hroom)
  rw [if_neg hstar, hcur, htake] at hassigns
  rw [scanValue_str hkind, Nat.add_sub_cancel_left]
  exact hassigns

theorem readsBack_digits (hcounted : Counted t) {hiFirst : Bool} {nPer : ℕ}
    {bytes : ℕ → Bytes → Bytes} (hkind : t.op.kind.digits = some (hiFirst, nPer, bytes))
    (hnames : needs t ≤ names.length) {zSrc : Bytes} (hargs : args = zSrc :: more)
    (hat : FieldAt zIn c (bytes t.count zSrc) rest) :
    ReadsBack env t args names zIn c (c + (bytes t.count zSrc).length) := by
  have hstar : ¬t.bStar = true := by simp [hcounted.2.2]
  have hroom := hat.room
  have hone : ∃ digits zValue, Canonical env t args [zValue] ∧
      digits t.count (bytes t.count zSrc ++ rest) = zValue ∧
      (bytes t.count zSrc).length = (t.count + (nPer - 1)) / nPer ∧
      ∀ zVarName s, scanValue env zIn t zVarName s = scanDigits zIn t nPer digits zVarName s := by
    rcases hcases : t.op.kind <;> rw [hcases] at hkind <;> cases hkind
    · exact ⟨_, _, .bits (Or.inl hcases) hargs, scannedBits_bitsBytes false _ _ rest,
        length_bitsBytes _ _ _, fun zVarName s => by simp only [scanValue, hcases]⟩
    · exact ⟨_, _, .bits (Or.inr hcases) hargs, scannedBits_bitsBytes true _ _ rest,
        length_bitsBytes _ _ _, fun zVarName s => by simp only [scanValue, hcases]⟩
    · exact ⟨_, _, .hex (Or.inl hcases) hargs, scannedHex_hexBytes false _ _ rest,
        length_hexBytes _ _ _, fun zVarName s => by simp only [scanValue, hcases]⟩
    · exact ⟨_, _, .hex (Or.inr hcases) hargs, scannedHex_hexBytes true _ _ rest,
        length_hexBytes _ _ _, fun zVarName s => by simp only [scanValue, hcases]⟩
  obtain ⟨digits, zValue, hcanonical, hdigits, hlen, hscan⟩ := hone
  rw [hlen] at hroom ⊢
  refine .of_one hcounted.1 hnames hcanonical (fun zVarName s hcur => ?_) (le_add_right _ _)
  have hassigns := scanDigits_assigns (s := s) (t := t) zVarName digits
    (by rw [if_neg hstar]) rfl (by rw [hcur]; exact hroom)
  rw [hcur, hat.drop, hdigits] at hassigns
  rw [hscan, Nat.add_sub_cancel_left]
  exact hassigns

theorem readsBack_bigint (hmp : env.mp.Exact) (hcounted : Counted t)
    (hkind : t.op.kind = .bigintFixed) (hnarrow : Narrow env t) (hnames : needs t ≤ names.length)
    {zArg : Bytes} (hargs : args = zArg :: more) {nWidth : ℕ}
    (hwidth : bigintWidth env t zArg = .ok nWidth) {zField : Bytes}
    (hfield : bigintField env t nWidth zArg = .ok zField) (hat : FieldAt zIn c zField rest)
    (hzIn : zIn.length ≤ lenMask) :
    ReadsBack env t args names zIn c (c + zField.length) := by
  have hstar : ¬t.bStar = true := by simp [hcounted.2.2]
  rw [bigintWidth, if_neg hstar] at hwidth
  split_ifs at hwidth with hzero
  cases hwidth
  have hlen : zField.length = t.count := length_bigintField hmp hfield
  have hroom := hat.room
  rw [hlen] at hroom ⊢
  obtain ⟨v, hread, htext⟩ := bigintText_bigintField hmp hzero (by omega) (hnarrow hkind) hfield
  have htake : (zIn.drop c).take t.count = zField := by
    rw [hat.drop, take_left' hlen]
  refine .of_one hcounted.1 hnames (.bigint hkind hargs hread) (fun zVarName s hcur => ?_)
    (le_add_right _ _)
  rw [scanValue_bigint hkind, Nat.add_sub_cancel_left]
  refine scanBigint_assigns (by rw [if_neg hstar]) (fun _ => hzero) (by rw [hcur]; exact hroom) ?_
  rw [hcur, htake]
  exact htext

theorem readsBack_of_fieldOf (hmp : env.mp.Exact) (hmem : t.op ∈ aBinaryOps env.native)
    (hcounted : Counted t) (hnarrow : Narrow env t) (hnames : needs t ≤ names.length) {z : Bytes}
    (hfield : FieldOf env t args z) (hat : FieldAt zIn c z rest) (hzIn : zIn.length ≤ lenMask) :
    ReadsBack env t args names zIn c (c + z.length) := by
  have hstar : ¬t.bStar = true := by simp [hcounted.2.2]
  cases hfield with
  | ints hkind htaken hread =>
    rw [Taken, if_neg hstar] at htaken
    obtain ⟨rfl, hlen⟩ := htaken
    exact readsBack_ints hmp hmem hcounted hkind hnames hlen hread hat
  | floats hkind =>
    rw [hcounted.2.1] at hkind
    cases hkind
  | str hkind hargs =>
    rw [if_neg hstar] at hat ⊢
    exact readsBack_str hcounted hkind hnames hargs hat
  | digits hkind hargs =>
    rw [if_neg hstar] at hat ⊢
    exact readsBack_digits hcounted hkind hnames hargs hat
  | bigint hkind hargs hwidth hz =>
    exact readsBack_bigint hmp hcounted hkind hnarrow hnames hargs hwidth hz hat hzIn

/-! ## All fields -/

variable {s s' : FormatState}

theorem Wrote.append {z : Bytes} (h : Wrote t s s' z) (hend : s.out.iCur = s.out.zBuf.length) :
    s'.out.zBuf = s.out.zBuf ++ z ∧ s'.out.iCur = s'.out.zBuf.length := by
  have hbuf : s'.out.zBuf = s.out.zBuf ++ z := by
    rw [h.out.1, FormatBuf.store, hend]
    simp
  refine ⟨hbuf, ?_⟩
  rw [hbuf, h.out.2, FormatBuf.store_iCur, hend, length_append]

theorem formatTokens_prefix (hcounted : ∀ t ∈ toks, Counted t)
    (hend : s.out.iCur = s.out.zBuf.length) (h : (formatTokens env toks s).result = .ok s') :
    s.out.zBuf <+: s'.out.zBuf := by
  induction toks generalizing s with
  | nil =>
    cases h
    exact prefix_rfl
  | cons t rest ih =>
    rw [formatTokens] at h
    obtain ⟨s₁, hstep, h⟩ := Traced.bind_eq_ok.mp h
    have hwithin : s.out.Within := hend.le
    obtain ⟨z, -, hwrote⟩ := formatToken_value hwithin (hcounted t mem_cons_self).1 hstep
    obtain ⟨hbuf, hend'⟩ := hwrote.append hend
    have hrest := ih (fun u hu => hcounted u (mem_cons_of_mem _ hu)) hend' h
    rw [hbuf] at hrest
    exact (prefix_append _ _).trans hrest

theorem scanTokens_reads (hmp : env.mp.Exact) (hvalid : ∀ t ∈ toks, t.Valid env.native)
    (hcounted : ∀ t ∈ toks, Counted t) (hnarrow : ∀ t ∈ toks, Narrow env t)
    (hend : s.out.iCur = s.out.zBuf.length) (h : (formatTokens env toks s).result = .ok s')
    (hlen : s'.out.zBuf.length ≤ lenMask) (hnames : allNeeds toks ≤ names.length) :
    ∃ values c, AllCanonical env toks s.args values ∧
      ∀ n, Assigns (scanTokens env s'.out.zBuf toks ⟨s.out.iCur, names, n, false⟩)
        (names.zip values) ⟨c, names.drop values.length, n + values.length, false⟩ := by
  induction toks generalizing s names with
  | nil =>
    refine ⟨[], s.out.iCur, .nil _, fun n => ?_⟩
    rw [zip_nil_right]
    exact assigns_pure _
  | cons t rest ih =>
    have hcounted' : ∀ u ∈ rest, Counted u := fun u hu => hcounted u (mem_cons_of_mem _ hu)
    have ht := hcounted t mem_cons_self
    have hmem := (hvalid t mem_cons_self).mem
    rw [formatTokens] at h
    obtain ⟨s₁, hstep, h⟩ := Traced.bind_eq_ok.mp h
    have hwithin : s.out.Within := hend.le
    obtain ⟨z, hfield, hwrote⟩ := formatToken_value hwithin ht.1 hstep
    obtain ⟨hbuf, hend'⟩ := hwrote.append hend
    obtain ⟨zRest, hzRest⟩ := formatTokens_prefix hcounted' hend' h
    have hat : FieldAt s'.out.zBuf s.out.iCur z zRest := by
      rw [← hzRest, hbuf, hend, append_assoc]
      exact ⟨drop_left' rfl, by simp only [length_append]; omega⟩
    have hsum : needs t + allNeeds rest ≤ names.length := by
      simpa [allNeeds] using hnames
    obtain ⟨values, hcanonical, hfew, hfirst⟩ := readsBack_of_fieldOf hmp hmem ht
      (hnarrow t mem_cons_self) ((le_add_right _ _).trans hsum) hfield hat hlen
    have henough : allNeeds rest ≤ (names.drop values.length).length := by
      rw [length_drop]
      omega
    obtain ⟨more, c, hall, hmore⟩ := ih (fun u hu => hvalid u (mem_cons_of_mem _ hu))
      hcounted' (fun u hu => hnarrow u (mem_cons_of_mem _ hu)) hend' h henough
    have hnext : s₁.out.iCur = s.out.iCur + z.length := by
      rw [hend', hbuf, length_append, hend]
    rw [hnext] at hmore
    rw [hwrote.args] at hall
    refine ⟨values ++ more, c, .cons hcanonical hall, fun n => ?_⟩
    rw [zip_append_drop (by omega), length_append, ← drop_drop, ← add_assoc]
    exact (hfirst n).bind (hmore (n + values.length))

/-- `binary scan` of what `binary format` has made of a format string of specifiers with
counts assigns the arguments in their canonical form, in order, and returns their number. -/
theorem binaryScan_binaryFormat (hmp : env.mp.Exact) {zFmt : Bytes} {out : TString}
    (hcounted : ∀ t ∈ (tokens env.native zFmt).1, Counted t)
    (hnarrow : ∀ t ∈ (tokens env.native zFmt).1, Narrow env t)
    (hformat : (binaryFormat env zFmt args).result = .ok out)
    (hreach : reach env (tokens env.native zFmt).1 args 0 0 ≤ lenMask)
    (hnames : allNeeds (tokens env.native zFmt).1 ≤ names.length) :
    ∃ values, AllCanonical env (tokens env.native zFmt).1 args values ∧
      Assigns (binaryScan env out.bytes zFmt names) (names.zip values) values.length := by
  obtain ⟨s, htokens, hlen, hbytes⟩ := binaryFormat_ok hmp hformat hreach
  have hnone : (tokens env.native zFmt).2 = none := by
    rw [binaryFormat] at hformat
    obtain ⟨s₁, -, hend⟩ := Traced.bind_eq_ok.mp hformat
    rcases herror : (tokens env.native zFmt).2 with _ | e
    · rfl
    · rw [herror] at hend
      cases hend
  have hstart : (⟨.empty, args⟩ : FormatState).out.iCur =
      (⟨.empty, args⟩ : FormatState).out.zBuf.length := rfl
  obtain ⟨values, c, hall, hassigns⟩ := scanTokens_reads hmp (fun t ht => tokens_valid ht)
    hcounted hnarrow hstart htokens hlen hnames
  refine ⟨values, hall, ?_⟩
  rw [hbytes, binaryScan, ← append_nil (names.zip values)]
  refine (hassigns 0).bind ?_
  rw [hnone, zero_add]
  exact assigns_pure _

/-- `c2A3H3j2`. -/
theorem binaryScan_binaryFormat_sample :
    ∃ values, AllCanonical sampleEnv (tokens .little (ascii "c2A3H3j2")).1
        [ascii "1", ascii "-2", ascii "x", ascii "a0f", ascii "-300"] values ∧
      Assigns (binaryScan sampleEnv ([1, 0xfe, 0x78, 0x20, 0x20, 0xa0, 0xf0, 0xd4, 0xfe])
          (ascii "c2A3H3j2") [ascii "p", ascii "q", ascii "r", ascii "s", ascii "t"])
        ([ascii "p", ascii "q", ascii "r", ascii "s", ascii "t"].zip values) values.length := by
  have hformat : (binaryFormat sampleEnv (ascii "c2A3H3j2")
      [ascii "1", ascii "-2", ascii "x", ascii "a0f", ascii "-300"]).result =
      .ok (.plain [1, 0xfe, 0x78, 0x20, 0x20, 0xa0, 0xf0, 0xd4, 0xfe]) := by decide
  exact binaryScan_binaryFormat Bigint.referenceLib_exact (by decide)
    (by decide) hformat (by decide) (by decide)

/-- A specifier with a count of two integers assigns two values. -/
theorem not_one_value_each : ¬∀ env zFmt args out names, env.mp.Exact →
    (∀ t ∈ (tokens env.native zFmt).1, Counted t) →
    (binaryFormat env zFmt args).result = .ok out →
    allNeeds (tokens env.native zFmt).1 ≤ names.length →
    (binaryScan env out.bytes zFmt names).result = .ok (tokens env.native zFmt).1.length := by
  intro h
  have hscan := h sampleEnv (ascii "c2") [ascii "1", ascii "2"] (.plain [1, 2])
    [ascii "u", ascii "v"] Bigint.referenceLib_exact (by decide) (by decide)
    (by decide)
  revert hscan
  decide

end Binary

end Th8
