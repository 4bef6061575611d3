import Th8.Codec.Base64

/-!
# Base64 texts
-/

namespace Th8.Base64

/-!
## Base64 round trips

The text the encoder writes fills the room it made, and the decoder reads it back.
The decoder stays within its output buffer on every text, malformed ones included.
-/

section RoundTrip

open List Option Nat

/-! ### One symbol of the decoder -/

def Symbol.data : Symbol → Option (ℕ × ℕ)
  | .sextet v => some (v, 0)
  | .padding => some (0, 1)
  | .whitespace => none
  | .invalid => none

variable {c : Byte} {v p : ℕ}

theorem symbol_of_data (hc : (symbol c).data = some (v, p)) :
    (symbol c = .sextet v ∧ p = 0) ∨ (symbol c = .padding ∧ v = 0 ∧ p = 1) := by
  cases hs : symbol c with
  | sextet w =>
    rw [hs] at hc
    cases hc
    exact Or.inl ⟨rfl, rfl⟩
  | padding =>
    rw [hs] at hc
    cases hc
    exact Or.inr ⟨rfl, rfl, rfl⟩
  | whitespace => simp [hs, Symbol.data] at hc
  | invalid => simp [hs, Symbol.data] at hc

theorem decodeLoop_data (hc : (symbol c).data = some (v, p)) (buf : List ℕ) (padCount : ℕ)
    (zOut rest : Bytes) :
    decodeLoop buf padCount zOut (c :: rest) =
      if buf.length = 3 then
        decodeLoop [] 0 (zOut ++ groupBytes (buf ++ [v]) (padCount + p)) rest
      else decodeLoop (buf ++ [v]) (padCount + p) zOut rest := by
  rw [decodeLoop]
  rcases symbol_of_data hc with ⟨hs, rfl⟩ | ⟨hs, rfl, rfl⟩
  · rw [hs]
    rfl
  · rw [hs]

theorem decodeLoop_four {c₁ c₂ c₃ c₄ : Byte} {v₁ v₂ v₃ v₄ p₁ p₂ p₃ p₄ : ℕ}
    (h₁ : (symbol c₁).data = some (v₁, p₁)) (h₂ : (symbol c₂).data = some (v₂, p₂))
    (h₃ : (symbol c₃).data = some (v₃, p₃)) (h₄ : (symbol c₄).data = some (v₄, p₄))
    (zOut rest : Bytes) :
    decodeLoop [] 0 zOut (c₁ :: c₂ :: c₃ :: c₄ :: rest) =
      decodeLoop [] 0 (zOut ++ groupBytes [v₁, v₂, v₃, v₄] (p₁ + p₂ + p₃ + p₄)) rest := by
  rw [decodeLoop_data h₁, if_neg (by simp), decodeLoop_data h₂, if_neg (by simp),
    decodeLoop_data h₃, if_neg (by simp), decodeLoop_data h₄, if_pos (by simp)]
  simp

theorem data_encChar (v : ℕ) : (symbol (encChar v)).data = some (v % 64, 0) := by
  have key : ∀ n : Fin 64, (symbol (alphabet.getD n 0)).data = some (n.val, 0) := by
    decide +kernel
  exact key ⟨v % 64, mod_lt v (by decide)⟩

theorem data_pad : (symbol 0x3d).data = some (0, 1) := by
  decide

theorem decodeLoop_newline (zOut rest : Bytes) :
    decodeLoop [] 0 zOut (0x0d :: 0x0a :: rest) = decodeLoop [] 0 zOut rest := by
  have hcr : symbol 0x0d = .whitespace := by decide
  have hlf : symbol 0x0a = .whitespace := by decide
  rw [decodeLoop, hcr, decodeLoop, hlf]

theorem toUInt8_of_mod {n : ℕ} {a : Byte} (h : n % 256 = a.toNat) : n.toUInt8 = a := by
  apply UInt8.toNat_inj.mp
  rw [← h]
  exact UInt8.toNat_ofNat'

theorem groupBytes_eq {v₁ v₂ v₃ v₄ t : ℕ}
    (ht : ((v₁ * 64 + v₂) * 64 + v₃) * 64 + v₄ = t) (padCount : ℕ) :
    groupBytes [v₁, v₂, v₃, v₄] padCount =
      (t / 65536).toUInt8 ::
        ((if padCount < 2 then [(t / 256).toUInt8] else []) ++
          (if padCount < 1 then [t.toUInt8] else [])) := by
  simp only [groupBytes, List.foldl, zero_mul, zero_add, ht]

theorem decodeLoop_group_three (a b c : Byte) (zOut rest : Bytes) :
    decodeLoop [] 0 zOut (encodeGroup a b c 3 ++ rest) =
      decodeLoop [] 0 (zOut ++ [a, b, c]) rest := by
  have ha := a.toNat_lt
  have hb := b.toNat_lt
  have hc := c.toNat_lt
  obtain ⟨t, ht⟩ : ∃ t, t = a.toNat * 65536 + b.toNat * 256 + c.toNat := ⟨_, rfl⟩
  have hdec := decodeLoop_four (data_encChar (t / 2 ^ 18)) (data_encChar (t / 2 ^ 12))
    (data_encChar (t / 2 ^ 6)) (data_encChar t) zOut rest
  rw [groupBytes_eq (t := t) (by omega), toUInt8_of_mod (a := a) (by omega),
    toUInt8_of_mod (a := b) (by omega), toUInt8_of_mod (a := c) (by omega)] at hdec
  rw [ht] at hdec
  exact hdec

theorem decodeLoop_group_two (a b : Byte) (zOut rest : Bytes) :
    decodeLoop [] 0 zOut (encodeGroup a b 0 2 ++ rest) = decodeLoop [] 0 (zOut ++ [a, b]) rest := by
  have ha := a.toNat_lt
  have hb := b.toNat_lt
  obtain ⟨t, ht⟩ : ∃ t, t = a.toNat * 65536 + b.toNat * 256 + (0 : Byte).toNat := ⟨_, rfl⟩
  have hzero : (0 : Byte).toNat = 0 := rfl
  have hdec := decodeLoop_four (data_encChar (t / 2 ^ 18)) (data_encChar (t / 2 ^ 12))
    (data_encChar (t / 2 ^ 6)) data_pad zOut rest
  rw [groupBytes_eq (t := t) (by omega), toUInt8_of_mod (a := a) (by omega),
    toUInt8_of_mod (a := b) (by omega)] at hdec
  rw [ht] at hdec
  exact hdec

theorem decodeLoop_group_one (a : Byte) (zOut rest : Bytes) :
    decodeLoop [] 0 zOut (encodeGroup a 0 0 1 ++ rest) = decodeLoop [] 0 (zOut ++ [a]) rest := by
  have ha := a.toNat_lt
  obtain ⟨t, ht⟩ : ∃ t, t = a.toNat * 65536 + (0 : Byte).toNat * 256 + (0 : Byte).toNat := ⟨_, rfl⟩
  have hzero : (0 : Byte).toNat = 0 := rfl
  have hdec := decodeLoop_four (data_encChar (t / 2 ^ 18)) (data_encChar (t / 2 ^ 12))
    data_pad data_pad zOut rest
  rw [groupBytes_eq (t := t) (by omega), toUInt8_of_mod (a := a) (by omega)] at hdec
  rw [ht] at hdec
  exact hdec

/-! ### The text of the encoder -/

theorem decodeLoop_encodeLoop (linePos : ℕ) (zIn : Bytes) :
    ∀ zOut, decodeLoop [] 0 zOut (encodeLoop linePos zIn) = some (zOut ++ zIn) := by
  fun_induction encodeLoop linePos zIn with
  | case1 linePos =>
    intro zOut
    simp [decodeLoop]
  | case2 linePos a =>
    intro zOut
    have h := decodeLoop_group_one a zOut []
    rw [append_nil] at h
    rw [h, decodeLoop]
  | case3 linePos a b =>
    intro zOut
    have h := decodeLoop_group_two a b zOut []
    rw [append_nil] at h
    rw [h, decodeLoop]
  | case4 linePos a b c rest ihNew ihSame =>
    intro zOut
    rw [decodeLoop_group_three]
    by_cases hbreak : 76 ≤ linePos + 4 ∧ rest ≠ []
    · rw [if_pos hbreak, decodeLoop_newline, ihNew]
      simp
    · rw [if_neg hbreak, ihSame]
      simp

theorem encodeGroup_length (a b c : Byte) (nChunk : ℕ) :
    (encodeGroup a b c nChunk).length = 4 := rfl

/-- The characters and the line breaks of a text that starts in column `linePos`. -/
def textLength (linePos nIn : ℕ) : ℕ :=
  (nIn + 2) / 3 * 4 + 2 * ((linePos + (nIn + 2) / 3 * 4 - 1) / 76)

theorem encodeLoop_length (linePos : ℕ) (zIn : Bytes) (hcol : linePos < 76)
    (hdvd : linePos % 4 = 0) :
    (encodeLoop linePos zIn).length = textLength linePos zIn.length := by
  fun_induction encodeLoop linePos zIn with
  | case1 linePos =>
    simp only [textLength, length_nil]
    omega
  | case2 linePos a =>
    simp only [textLength, length_cons, length_nil, encodeGroup_length]
    omega
  | case3 linePos a b =>
    simp only [textLength, length_cons, length_nil, encodeGroup_length]
    omega
  | case4 linePos a b c rest ihNew ihSame =>
    rw [length_append, encodeGroup_length]
    by_cases hbreak : 76 ≤ linePos + 4 ∧ rest ≠ []
    · have hne : 0 < rest.length := length_pos_of_ne_nil hbreak.2
      rw [if_pos hbreak, length_cons, length_cons, ihNew (by decide) (by decide)]
      simp only [textLength, length_cons]
      omega
    · rw [if_neg hbreak]
      by_cases hrest : rest = []
      · subst hrest
        simp only [textLength, encodeLoop, length_cons, length_nil]
        omega
      · have hfit : linePos + 4 < 76 := by
          by_contra h
          exact hbreak ⟨by omega, hrest⟩
        have hne : 0 < rest.length := length_pos_of_ne_nil hrest
        rw [ihSame hfit (by omega)]
        simp only [textLength, length_cons]
        omega

theorem encodedSize_eq_some {nIn nOut : ℕ} (h : encodedSize nIn = some nOut) :
    nOut = textLength 0 nIn := by
  obtain ⟨nTmp, hTmp, h⟩ := bind_eq_some_iff.mp h
  obtain ⟨nRaw, hRaw, h⟩ := bind_eq_some_iff.mp h
  obtain ⟨nBreak, hBreak, h⟩ := bind_eq_some_iff.mp h
  have hTmp := (safeAddSize_eq_some.mp hTmp).2
  have hRaw := ((safeMulSize_eq_some (by decide)).mp hRaw).2
  have hBreak := ((safeMulSize_eq_some (by decide)).mp hBreak).2
  have hOut := (safeAddSize_eq_some.mp h).2
  simp only [textLength]
  by_cases hpos : 0 < nRaw
  · rw [if_pos hpos] at hBreak
    omega
  · rw [if_neg hpos] at hBreak
    omega

theorem encodedSize_eq_none {nIn : ℕ} (h : encodedSize nIn = none) :
    mxAlloc ≤ textLength 0 nIn := by
  by_contra hsmall
  have hin : (nIn + 2) / 3 * 4 < 256 * 1024 * 1024 := by
    simp only [textLength, mxAlloc] at hsmall
    omega
  have hadd : safeAddSize nIn 2 = some (nIn + 2) :=
    safeAddSize_eq_some.mpr ⟨by simp only [sizeMax]; omega, rfl⟩
  have hraw : safeMulSize ((nIn + 2) / 3) 4 = some ((nIn + 2) / 3 * 4) :=
    (safeMulSize_eq_some (by decide)).mpr ⟨by simp only [sizeMax]; omega, rfl⟩
  obtain ⟨nLines, hLines, hle⟩ :
      ∃ n, n = (if 0 < (nIn + 2) / 3 * 4 then ((nIn + 2) / 3 * 4 - 1) / 76 else 0) ∧
        n ≤ 256 * 1024 * 1024 := by
    refine ⟨_, rfl, ?_⟩
    split_ifs <;> omega
  have hbreak : safeMulSize nLines 2 = some (nLines * 2) :=
    (safeMulSize_eq_some (by decide)).mpr ⟨by simp only [sizeMax]; omega, rfl⟩
  have hout : safeAddSize ((nIn + 2) / 3 * 4) (nLines * 2) =
      some ((nIn + 2) / 3 * 4 + nLines * 2) :=
    safeAddSize_eq_some.mpr ⟨by simp only [sizeMax]; omega, rfl⟩
  have hsome : encodedSize nIn = some ((nIn + 2) / 3 * 4 + nLines * 2) := by
    simp only [encodedSize, hadd, hraw, bind_eq_bind, bind_some, ← hLines, hbreak, hout]
  rw [hsome] at h
  exact absurd h (by simp)

theorem groupBytes_length_le (buf : List ℕ) (padCount : ℕ) :
    (groupBytes buf padCount).length ≤ 3 := by
  unfold groupBytes
  split_ifs <;> simp

theorem decodeWritten_data (hc : (symbol c).data = some (v, p)) (buf : List ℕ) (padCount : ℕ)
    (zOut rest : Bytes) :
    decodeWritten buf padCount zOut (c :: rest) =
      if buf.length = 3 then
        decodeWritten [] 0 (zOut ++ groupBytes (buf ++ [v]) (padCount + p)) rest
      else decodeWritten (buf ++ [v]) (padCount + p) zOut rest := by
  rw [decodeWritten]
  rcases symbol_of_data hc with ⟨hs, rfl⟩ | ⟨hs, rfl, rfl⟩
  · rw [hs]
    rfl
  · rw [hs]

theorem symbol_cases (c : Byte) :
    (∃ v p, (symbol c).data = some (v, p)) ∨ symbol c = .whitespace ∨ symbol c = .invalid := by
  cases hs : symbol c with
  | sextet v => exact Or.inl ⟨v, 0, rfl⟩
  | padding => exact Or.inl ⟨0, 1, rfl⟩
  | whitespace => exact Or.inr (Or.inl rfl)
  | invalid => exact Or.inr (Or.inr rfl)

theorem decodeWritten_length_le (zIn : Bytes) :
    ∀ (buf : List ℕ) (padCount : ℕ) (zOut : Bytes), buf.length ≤ 3 →
      (decodeWritten buf padCount zOut zIn).length ≤
        zOut.length + 3 * ((buf.length + zIn.length) / 4) := by
  induction zIn with
  | nil =>
    intro buf padCount zOut _
    simp [decodeWritten]
  | cons c rest ih =>
    intro buf padCount zOut hbuf
    rw [length_cons]
    rcases symbol_cases c with ⟨v, p, hc⟩ | hc | hc
    · rw [decodeWritten_data hc]
      by_cases hfull : buf.length = 3
      · rw [if_pos hfull]
        have hgroup := groupBytes_length_le (buf ++ [v]) (padCount + p)
        have hrest := ih [] 0 (zOut ++ groupBytes (buf ++ [v]) (padCount + p)) (by simp)
        rw [length_append, length_nil] at hrest
        omega
      · rw [if_neg hfull]
        have hlen : (buf ++ [v]).length = buf.length + 1 := by simp
        have hrest := ih (buf ++ [v]) (padCount + p) zOut (by omega)
        rw [hlen] at hrest
        omega
    · have hskip : decodeWritten buf padCount zOut (c :: rest) =
          decodeWritten buf padCount zOut rest := by
        rw [decodeWritten, hc]
      have hrest := ih buf padCount zOut hbuf
      rw [hskip]
      omega
    · have hstop : decodeWritten buf padCount zOut (c :: rest) = zOut := by
        rw [decodeWritten, hc]
      rw [hstop]
      omega

theorem decodeWritten_of_decodeLoop (zIn : Bytes) :
    ∀ (buf : List ℕ) (padCount : ℕ) (zOut z : Bytes), decodeLoop buf padCount zOut zIn = some z →
      decodeWritten buf padCount zOut zIn = z := by
  induction zIn with
  | nil =>
    intro buf padCount zOut z h
    simpa [decodeLoop, decodeWritten] using h
  | cons c rest ih =>
    intro buf padCount zOut z h
    rcases symbol_cases c with ⟨v, p, hc⟩ | hc | hc
    · rw [decodeLoop_data hc] at h
      rw [decodeWritten_data hc]
      by_cases hfull : buf.length = 3
      · rw [if_pos hfull] at h ⊢
        exact ih _ _ _ _ h
      · rw [if_neg hfull] at h ⊢
        exact ih _ _ _ _ h
    · rw [decodeLoop, hc] at h
      rw [decodeWritten, hc]
      exact ih _ _ _ _ h
    · rw [decodeLoop, hc] at h
      exact absurd h (by simp)

theorem decodeWritten_length_le_outMax (zIn : Bytes) :
    (decodeWritten [] 0 [] zIn).length ≤ outMax zIn.length := by
  have h := decodeWritten_length_le zIn [] 0 [] (by simp)
  rw [length_nil, length_nil, zero_add, zero_add] at h
  rw [outMax]
  omega

/-! ### Encoding and decoding -/

theorem setResult_of_lt {z : Bytes} (granted : Bool) (hz : z.length < mxAlloc) :
    setResult granted z z.length =
      if granted then (.plain z, false) else (.plain [], true) := by
  have hlen : z.length < 2 ^ 28 := by
    simp only [mxAlloc] at hz
    omega
  have hraw : z.length % 2 ^ 28 = z.length := mod_eq_of_lt hlen
  have htaint : z.length / 2 ^ 28 = 0 := div_eq_of_lt hlen
  have hsens : z.length / 2 ^ 29 = 0 := div_eq_of_lt (by omega)
  simp only [setResult, lengthWord, hraw, htaint, hsens, take_length]
  by_cases hg : granted = true
  · rw [if_pos (safeAllocStr_eq_true.mpr ⟨hg, hz⟩), if_pos hg]
    rfl
  · rw [if_neg (fun h => hg (safeAllocStr_eq_true.mp h).1), if_neg hg]

theorem encode_none_or_some (bufGranted resultGranted : Bool) (zIn : Bytes) :
    (encode bufGranted resultGranted zIn = none ∧
      (bufGranted = false ∨ mxAlloc ≤ textLength 0 zIn.length)) ∨
    (bufGranted = true ∧ textLength 0 zIn.length < mxAlloc ∧
      encode bufGranted resultGranted zIn =
        some ⟨textLength 0 zIn.length, encodeLoop 0 zIn,
          if resultGranted then .plain (encodeLoop 0 zIn) else .plain [],
          !resultGranted⟩) := by
  cases hsize : encodedSize zIn.length with
  | none =>
    exact Or.inl ⟨by simp [encode, hsize], Or.inr (encodedSize_eq_none hsize)⟩
  | some nOut =>
    have hOut := encodedSize_eq_some hsize
    by_cases hbuf : safeAllocStr bufGranted nOut = true
    · obtain ⟨hg, hlt⟩ := safeAllocStr_eq_true.mp hbuf
      have hlen := encodeLoop_length 0 zIn (by decide) (by decide)
      have hset := setResult_of_lt resultGranted (z := encodeLoop 0 zIn) (by omega)
      refine Or.inr ⟨hg, by omega, ?_⟩
      simp only [encode, hsize, bind_eq_bind, bind_some, hbuf, if_true, hset]
      cases resultGranted with
      | true => simp [hOut]
      | false => simp [hOut]
    · refine Or.inl ⟨by simp [encode, hsize, hbuf], ?_⟩
      by_contra hno
      rw [not_or] at hno
      apply hbuf
      apply safeAllocStr_eq_true.mpr
      exact ⟨by simpa using hno.1, by omega⟩

theorem decodeAlloc_encodeLoop {zIn : Bytes} (h : textLength 0 zIn.length < mxAlloc) :
    decodeAlloc true (encodeLoop 0 zIn) = some zIn := by
  have hlen := encodeLoop_length 0 zIn (by decide) (by decide)
  have hin : ¬maxInput < (encodeLoop 0 zIn).length := by
    have hmax : mxAlloc ≤ maxInput := by decide
    omega
  have hout : safeAllocStr true (outMax (encodeLoop 0 zIn).length) = true := by
    apply safeAllocStr_eq_true.mpr
    refine ⟨rfl, ?_⟩
    simp only [outMax, mxAlloc] at h ⊢
    omega
  rw [decodeAlloc, if_neg hin, if_pos hout, decodeLoop_encodeLoop]
  rfl

theorem decodeAlloc_none_or_written (granted : Bool) (text : Bytes) :
    decodeAlloc granted text = none ∨
      decodeAlloc granted text = some (decodeWritten [] 0 [] text) := by
  unfold decodeAlloc
  split_ifs with hin hout
  · exact Or.inl rfl
  · cases hloop : decodeLoop [] 0 [] text with
    | none => exact Or.inl rfl
    | some z => exact Or.inr (by rw [decodeWritten_of_decodeLoop _ _ _ _ _ hloop])
  · exact Or.inl rfl

/-- The encoder fails only when its buffer is refused, which happens for every text
from the allocation ceiling on.  Otherwise it fills the room it made, and unless the
copy into the result is refused and flagged, the result decodes to the input.  The
decoder stays within its buffer on every text, malformed ones included. -/
theorem encode_decode_roundTrip (bufGranted resultGranted outGranted : Bool) (b text : Bytes) :
    (match encode bufGranted resultGranted b with
      | none => bufGranted = false ∨ mxAlloc ≤ textLength 0 b.length
      | some e =>
        e.zOut.length = e.nOut ∧
          (if e.bResultBuildFailed then resultGranted = false
            else e.result = .plain e.zOut ∧ decodeAlloc true e.result.bytes = some b)) ∧
    (decodeWritten [] 0 [] text).length ≤ outMax text.length ∧
    (decodeAlloc outGranted text = none ∨
      decodeAlloc outGranted text = some (decodeWritten [] 0 [] text)) := by
  refine ⟨?_, decodeWritten_length_le_outMax text, decodeAlloc_none_or_written outGranted text⟩
  rcases encode_none_or_some bufGranted resultGranted b with ⟨h, hwhy⟩ | ⟨-, hlt, h⟩
  · rw [h]
    exact hwhy
  · rw [h]
    refine ⟨encodeLoop_length 0 b (by decide) (by decide), ?_⟩
    cases resultGranted with
    | true => exact ⟨rfl, decodeAlloc_encodeLoop hlt⟩
    | false => rfl

end RoundTrip

/-!
## What the decoder accepts

A well-formed text consists of groups of four characters, of which only the last may end
in padding.  The decoder looks at one character at a time: it refuses a character that is
outside the alphabet, and nothing else.
-/

section WellFormed

open List

/-- Groups of four characters, padding in the last one or two places of the last. -/
inductive Groups : List Symbol → Prop where
  | nil : Groups []
  | group (a b c d : ℕ) {rest : List Symbol} :
      Groups rest → Groups (.sextet a :: .sextet b :: .sextet c :: .sextet d :: rest)
  | one (a b c : ℕ) : Groups [.sextet a, .sextet b, .sextet c, .padding]
  | two (a b : ℕ) : Groups [.sextet a, .sextet b, .padding, .padding]

def significant (zIn : Bytes) : List Symbol :=
  (zIn.map symbol).filter fun s => s ≠ .whitespace

def WellFormed (zIn : Bytes) : Prop := Groups (significant zIn)

def Truncated (zIn : Bytes) : Prop := (significant zIn).length % 4 ≠ 0

def PaddingInside (zIn : Bytes) : Prop :=
  ∃ p v q, significant zIn = p ++ .padding :: .sextet v :: q

def PaddingLong (zIn : Bytes) : Prop := 2 < (significant zIn).count .padding

def Refused (granted : Bool) (zIn : Bytes) : Prop :=
  maxInput < zIn.length ∨ safeAllocStr granted (outMax zIn.length) = false ∨
    ∃ c ∈ zIn, symbol c = .invalid

def shape (vs : List ℕ) (k : ℕ) : List Symbol :=
  vs.map .sextet ++ List.replicate k .padding

theorem shape_cons (v : ℕ) (vs : List ℕ) (k : ℕ) :
    shape (v :: vs) k = .sextet v :: shape vs k := rfl

theorem shape_length (vs : List ℕ) (k : ℕ) : (shape vs k).length = vs.length + k := by
  simp [shape]

theorem count_shape (vs : List ℕ) (k : ℕ) : (shape vs k).count .padding = k := by
  have hnot : Symbol.padding ∉ vs.map Symbol.sextet := by simp
  rw [shape, count_append, count_eq_zero.mpr hnot, count_replicate_self, Nat.zero_add]

theorem Groups.exists_shape {ss : List Symbol} (h : Groups ss) :
    ∃ vs k, ss = shape vs k ∧ k ≤ 2 ∧ (vs.length + k) % 4 = 0 := by
  induction h with
  | nil => exact ⟨[], 0, rfl, by decide, rfl⟩
  | group a b c d _ ih =>
    obtain ⟨vs, k, rfl, hk, hlen⟩ := ih
    refine ⟨a :: b :: c :: d :: vs, k, rfl, hk, ?_⟩
    simp only [length_cons]
    omega
  | one a b c => exact ⟨[a, b, c], 1, rfl, by decide, by simp⟩
  | two a b => exact ⟨[a, b], 2, rfl, by decide, by simp⟩

theorem groups_shape {vs : List ℕ} {k : ℕ} (hk : k ≤ 2) (hlen : (vs.length + k) % 4 = 0) :
    Groups (shape vs k) := by
  match vs with
  | a :: b :: c :: d :: vs =>
    apply Groups.group
    apply groups_shape hk
    simp only [length_cons] at hlen
    omega
  | [] =>
    have hzero : k = 0 := by
      simp only [length_nil] at hlen
      omega
    subst hzero
    exact .nil
  | [a] =>
    simp only [length_singleton] at hlen
    omega
  | [a, b] =>
    have htwo : k = 2 := by
      simp only [length_cons, length_nil] at hlen
      omega
    subst htwo
    exact .two a b
  | [a, b, c] =>
    have hone : k = 1 := by
      simp only [length_cons, length_nil] at hlen
      omega
    subst hone
    exact .one a b c

theorem shape_ne_inside {vs : List ℕ} {k : ℕ} (p : List Symbol) (v : ℕ) (q : List Symbol) :
    shape vs k ≠ p ++ .padding :: .sextet v :: q := by
  intro h
  induction vs generalizing p with
  | nil =>
    have hmem : Symbol.sextet v ∈ shape [] k := by
      rw [h]
      simp
    simp [shape] at hmem
  | cons a vs ih =>
    cases p with
    | nil =>
      rw [shape_cons, nil_append] at h
      cases (List.cons.inj h).1
    | cons s p =>
      rw [shape_cons, cons_append] at h
      exact ih p (List.cons.inj h).2

theorem exists_shape {ss : List Symbol} (hdata : ∀ s ∈ ss, (∃ v, s = .sextet v) ∨ s = .padding)
    (hinside : ∀ p v q, ss ≠ p ++ .padding :: .sextet v :: q) :
    ∃ vs k, ss = shape vs k := by
  induction ss with
  | nil => exact ⟨[], 0, rfl⟩
  | cons s ss ih =>
    obtain ⟨vs, k, rfl⟩ := ih (fun t ht => hdata t (mem_cons_of_mem s ht))
      fun p v q h => hinside (s :: p) v q (congrArg _ h)
    rcases hdata s mem_cons_self with ⟨v, rfl⟩ | rfl
    · exact ⟨v :: vs, k, rfl⟩
    · cases vs with
      | nil => exact ⟨[], k + 1, rfl⟩
      | cons v vs => exact absurd rfl (hinside [] v (shape vs k))

variable {zIn : Bytes}

theorem decodeLoop_isSome_iff {buf : List ℕ} {padCount : ℕ} {zOut : Bytes} :
    (decodeLoop buf padCount zOut zIn).isSome = true ↔ ∀ c ∈ zIn, symbol c ≠ .invalid := by
  induction zIn generalizing buf padCount zOut with
  | nil => simp [decodeLoop]
  | cons c rest ih =>
    rw [forall_mem_cons]
    rcases symbol_cases c with ⟨v, p, hc⟩ | hc | hc
    · have hvalid : symbol c ≠ .invalid := by
        intro hinvalid
        rw [hinvalid] at hc
        cases hc
      rw [decodeLoop_data hc]
      simp only [hvalid, ne_eq, not_false_eq_true, true_and]
      split
      · exact ih
      · exact ih
    · rw [decodeLoop, hc]
      simpa using ih
    · rw [decodeLoop, hc]
      simp

theorem decodeAlloc_eq_none_iff {granted : Bool} :
    decodeAlloc granted zIn = none ↔ Refused granted zIn := by
  unfold decodeAlloc Refused
  by_cases hlong : maxInput < zIn.length
  · simp [hlong]
  by_cases hroom : safeAllocStr granted (outMax zIn.length) = true
  · rw [if_neg hlong, if_pos hroom, ← Option.not_isSome_iff_eq_none, decodeLoop_isSome_iff]
    simp [hlong, hroom]
  · rw [if_neg hlong, if_neg hroom]
    rw [Bool.not_eq_true] at hroom
    simp [hlong, hroom]

theorem significant_data (h : ∀ c ∈ zIn, symbol c ≠ .invalid) :
    ∀ s ∈ significant zIn, (∃ v, s = .sextet v) ∨ s = .padding := by
  intro s hs
  obtain ⟨hmem, hspace⟩ := mem_filter.mp hs
  obtain ⟨c, hc, rfl⟩ := mem_map.mp hmem
  cases hsym : symbol c with
  | sextet v => exact .inl ⟨v, rfl⟩
  | padding => exact .inr rfl
  | whitespace => simp [hsym] at hspace
  | invalid => exact absurd hsym (h c hc)

theorem wellFormed_iff (h : ∀ c ∈ zIn, symbol c ≠ .invalid) :
    WellFormed zIn ↔ ¬Truncated zIn ∧ ¬PaddingInside zIn ∧ ¬PaddingLong zIn := by
  unfold WellFormed Truncated PaddingInside PaddingLong
  constructor
  · intro hgroups
    obtain ⟨vs, k, heq, hk, hlen⟩ := hgroups.exists_shape
    rw [heq, shape_length, count_shape]
    refine ⟨not_not.mpr hlen, ?_, not_lt.mpr hk⟩
    rintro ⟨p, v, q, hinside⟩
    exact shape_ne_inside p v q hinside
  · rintro ⟨hfull, hinside, hlong⟩
    push Not at hinside
    obtain ⟨vs, k, heq⟩ := exists_shape (significant_data h) hinside
    rw [heq, shape_length] at hfull
    rw [heq, count_shape, not_lt] at hlong
    rw [heq]
    exact groups_shape hlong (not_not.mp hfull)

/-- `th8Base64Decode` succeeds on a malformed text exactly when it has only characters
of the alphabet but no full groups, or padding that is long or not at the end. -/
theorem decode_only_wellFormed_iff (granted : Bool) (zIn : Bytes) :
    ((∃ zOut, decodeAlloc granted zIn = some zOut) → WellFormed zIn) ↔
      Refused granted zIn ∨ ¬Truncated zIn ∧ ¬PaddingInside zIn ∧ ¬PaddingLong zIn := by
  rw [← Option.ne_none_iff_exists', ne_eq, decodeAlloc_eq_none_iff]
  by_cases hrefused : Refused granted zIn
  · exact iff_of_true (fun h => absurd hrefused h) (.inl hrefused)
  · have hvalid : ∀ c ∈ zIn, symbol c ≠ .invalid := fun c hc hinvalid =>
      hrefused (.inr (.inr ⟨c, hc, hinvalid⟩))
    simp only [hrefused, not_false_eq_true, forall_const, false_or, wellFormed_iff hvalid]

/-- A text that ends in the middle of a group decodes to the groups before it. -/
theorem not_decode_only_wellFormed :
    ¬∀ granted zIn, (∃ zOut, decodeAlloc granted zIn = some zOut) → WellFormed zIn := by
  intro h
  have hgroups : WellFormed (ascii "VEg4IQ=") :=
    h true _ ⟨ascii "TH8", by decide⟩
  obtain ⟨vs, k, heq, hk, hlen⟩ := Groups.exists_shape hgroups
  have hlength := congrArg List.length heq
  rw [shape_length] at hlength
  rw [← hlength] at hlen
  revert hlen
  decide

end WellFormed

end Th8.Base64
