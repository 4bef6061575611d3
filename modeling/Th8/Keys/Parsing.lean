import Mathlib.Tactic.NormNum
import Th8.Keys.RsaKey

/-!
# What the key parser reads

A blob is well formed when its two structures say what a signing key's say and the sizes
they declare fit.  What the parser returns, where it looks past the end of the data and what
memory it asks for is stated here for each of its steps.
-/

namespace Th8

open Support List Traced
open Traced (errors_bind request_result)

namespace Keys

def le32At (z : Bytes) (i : ℕ) : ℕ := loadLe ((z.drop i).take 4)

/-- A `PUBLICKEYSTRUC` of a signing key at the offset `z`. -/
structure SigningStruc (zData : Bytes) (z : ℕ) : Prop where
  inside : z + 8 ≤ zData.length
  bType : zData[z]? = some capiPublicKeyBlob ∨ zData[z]? = some capiPrivateKeyBlob
  bVersion : zData[z + 1]? = some capiBVersion
  reserved₁ : zData[z + 2]? = some 0
  reserved₂ : zData[z + 3]? = some 0
  aiKeyAlg : le32At zData (z + 4) = capiCalgRsaSign

/-- An `RSAPUBKEY` behind it: the magic number of the blob's type, a power of two of at
least 1024 bits and an odd exponent above one. -/
structure RsaPubKey (zData : Bytes) (z : ℕ) : Prop where
  inside : z + 20 ≤ zData.length
  magic : zData[z]? = some capiPublicKeyBlob ∧ le32At zData (z + 8) = capiRsa1Magic ∨
    zData[z]? = some capiPrivateKeyBlob ∧ le32At zData (z + 8) = capiRsa2Magic
  bitlen : 1024 ≤ le32At zData (z + 12) ∧ (le32At zData (z + 12)).isPowerOfTwo
  ePub : 3 ≤ le32At zData (z + 16) ∧ le32At zData (z + 16) % 2 = 1

def headerAt (zData : Bytes) (z : ℕ) : CapiHeader :=
  ⟨(zData[z]?).getD 0, le32At zData (z + 12), le32At zData (z + 16)⟩

/-- A CAPI blob within the `n` bytes from `z` on, which are bytes of the data. -/
structure CapiBlob (zData : Bytes) (z n : ℕ) : Prop where
  inside : z + n ≤ zData.length
  struc : SigningStruc zData z
  pubKey : RsaPubKey zData z
  fits : (headerAt zData z).nBlob ≤ n

structure DotnetHeader (zData : Bytes) : Prop where
  inside : 20 ≤ zData.length
  sigAlgId : le32At zData 0 = dotnetSigAlgRsa
  hashAlgId : le32At zData 4 = dotnetHashAlgSha1

/-- `cbPublicKey`, the size of the wrapped blob. -/
def cbPublicKey (zData : Bytes) : ℕ := le32At zData 8

def KeyBlob (zData : Bytes) : Prop :=
  CapiBlob zData 0 zData.length ∨ DotnetHeader zData ∧ CapiBlob zData 12 (cbPublicKey zData)

theorem loadLe_lt (p : Bytes) : loadLe p < 2 ^ (8 * p.length) := by
  induction p with
  | nil => exact Nat.one_pos
  | cons b p ih =>
    have hb := b.toNat_lt
    have hpow : 2 ^ (8 * (p.length + 1)) = 256 * 2 ^ (8 * p.length) := by
      rw [Nat.mul_add, Nat.pow_add, Nat.mul_comm]
    rw [loadLe_cons, length_cons, hpow]
    omega

theorem le32At_lt (z : Bytes) (i : ℕ) : le32At z i < 2 ^ 32 := by
  have hlen : ((z.drop i).take 4).length ≤ 4 := length_take_le _ _
  calc
    le32At z i < 2 ^ (8 * ((z.drop i).take 4).length) := loadLe_lt _
    _ ≤ 2 ^ 32 := Nat.pow_le_pow_right (by decide) (by omega)

/-! ## Single steps -/

section Steps

variable {zData : Bytes} {i n : ℕ} {e : Stop}

@[simp] theorem require_ops (ok : Bool) (zMsg : String) : (require ok zMsg).ops = [] := by
  cases ok
  · rfl
  · rfl

@[simp] theorem require_ok {ok : Bool} {zMsg : String} {u : Unit} :
    (require ok zMsg).result = .ok u ↔ ok = true := by
  cases ok
  · simp [require]
  · simp [require]

@[simp] theorem require_beyond {ok : Bool} {zMsg : String} :
    (require ok zMsg).result ≠ .error .beyond := by
  cases ok
  · simp [require]
  · simp [require]

@[simp] theorem readByte_ops : (readByte zData i).ops = [] := rfl

@[simp] theorem readByte_ok {c : Byte} :
    (readByte zData i).result = .ok c ↔ zData[i]? = some c := by
  rcases h : zData[i]? with _ | b
  · simp [readByte, h]
  · simp [readByte, h]

@[simp] theorem readByte_beyond :
    (readByte zData i).result = .error .beyond ↔ zData.length ≤ i := by
  rcases h : zData[i]? with _ | b
  · simpa [readByte, h] using getElem?_eq_none_iff.mp h
  · have hlt := (List.getElem?_eq_some_iff.mp h).1
    simpa [readByte, h] using hlt

@[simp] theorem readBytes_ops : (readBytes zData i n).ops = [] := rfl

@[simp] theorem readBytes_ok {p : Bytes} :
    (readBytes zData i n).result = .ok p ↔ i + n ≤ zData.length ∧ p = (zData.drop i).take n := by
  by_cases h : i + n ≤ zData.length
  · simp [readBytes, h, eq_comm]
  · simp [readBytes, h]

@[simp] theorem readBytes_beyond :
    (readBytes zData i n).result = .error .beyond ↔ zData.length < i + n := by
  by_cases h : i + n ≤ zData.length
  · simp [readBytes, h]
  · simp only [readBytes, h, if_false, lift_result, true_iff]
    omega

@[simp] theorem readLE32_ops : (readLE32 zData i).ops = [] := by
  unfold readLE32
  by_cases h : i + 4 ≤ zData.length
  · rw [bind_of_ok (readBytes_ok.mpr ⟨h, rfl⟩)]
    rfl
  · rw [bind_of_error (readBytes_beyond.mpr (by omega))]
    rfl

@[simp] theorem readLE32_ok {v : ℕ} :
    (readLE32 zData i).result = .ok v ↔ i + 4 ≤ zData.length ∧ v = le32At zData i := by
  simp only [readLE32, Traced.bind_eq_ok, readBytes_ok, Traced.pure_result, Except.ok.injEq]
  constructor
  · rintro ⟨p, ⟨hlen, rfl⟩, rfl⟩
    exact ⟨hlen, rfl⟩
  · rintro ⟨hlen, rfl⟩
    exact ⟨_, ⟨hlen, rfl⟩, rfl⟩

@[simp] theorem readLE32_beyond :
    (readLE32 zData i).result = .error .beyond ↔ zData.length < i + 4 := by
  simp only [readLE32, bind_eq_error, readBytes_beyond, Traced.pure_result,
    reduceCtorEq, and_false, exists_false, or_false]

@[simp] theorem rsaAllocComponent_ops : (rsaAllocComponent zData i n).ops = [.buffer n] := by
  unfold rsaAllocComponent
  rw [bind_of_ok (request_result _)]
  by_cases h : i + n ≤ zData.length
  · rw [bind_of_ok (readBytes_ok.mpr ⟨h, rfl⟩)]
    rfl
  · rw [bind_of_error (readBytes_beyond.mpr (by omega))]
    rfl

@[simp] theorem rsaAllocComponent_ok {p : Bytes} :
    (rsaAllocComponent zData i n).result = .ok p ↔
      i + n ≤ zData.length ∧ p = ((zData.drop i).take n).reverse := by
  simp only [rsaAllocComponent, Traced.bind_eq_ok, readBytes_ok, request_result,
    Traced.pure_result, Except.ok.injEq]
  constructor
  · rintro ⟨-, -, p, ⟨hlen, rfl⟩, rfl⟩
    exact ⟨hlen, rfl⟩
  · rintro ⟨hlen, rfl⟩
    exact ⟨(), trivial, _, ⟨hlen, rfl⟩, rfl⟩

@[simp] theorem rsaAllocComponent_beyond :
    (rsaAllocComponent zData i n).result = .error .beyond ↔ zData.length < i + n := by
  simp only [rsaAllocComponent, bind_eq_error, request_result,
    readBytes_beyond, Traced.pure_result, reduceCtorEq, and_false, exists_false, or_false,
    false_or, true_and, exists_const]

end Steps

/-! ## The parser -/

section Parser

variable {zData : Bytes} {z n : ℕ} {h : CapiHeader}

theorem powerOfTwo_of_check {n : ℕ} (hn : 1024 ≤ n) : n &&& (n - 1) = 0 ↔ n.isPowerOfTwo :=
  Nat.and_sub_one_eq_zero_iff_isPowerOfTwo (by omega)

@[simp] theorem parseHeader_ops : (parseHeader zData z n).ops = [] := by
  refine eq_nil_iff_forall_not_mem.mpr fun op hop => ?_
  simp only [parseHeader, mem_bind_ops, require_ops, readByte_ops, readLE32_ops,
    pure_ops, not_mem_nil, and_false, exists_false, or_false] at hop

theorem parseHeader_ok :
    (parseHeader zData z n).result = .ok h ↔
      20 ≤ n ∧ SigningStruc zData z ∧ RsaPubKey zData z ∧ h = headerAt zData z := by
  simp only [parseHeader, Traced.bind_eq_ok, require_ok, readByte_ok, readLE32_ok,
    Traced.pure_result, Except.ok.injEq, exists_const, decide_eq_true_eq, Bool.or_eq_true,
    Bool.not_eq_true', Bool.or_eq_false_iff, Bool.and_eq_false_iff, decide_eq_false_iff_not,
    Decidable.not_not, Nat.not_lt]
  constructor
  · rintro ⟨hn, bType, htype, hvalid, -, hversion, rfl, -, hr₁, rfl, -, hr₂, rfl, -,
      ⟨-, rfl⟩, halg, -, ⟨-, rfl⟩, -, ⟨-, rfl⟩, -, ⟨hlen, rfl⟩, -, hpub, hpriv,
      ⟨hbits, hpower⟩, ⟨hexp, hodd⟩, rfl⟩
    have hstruc : SigningStruc zData z :=
      ⟨by omega, by rcases hvalid with rfl | rfl <;> simp [htype], hversion, hr₁, hr₂, halg⟩
    refine ⟨hn, hstruc, ⟨hlen, ?_, ⟨hbits, (powerOfTwo_of_check hbits).mp hpower⟩, hexp, ?_⟩,
      by simp [headerAt, htype]⟩
    · rcases hvalid with rfl | rfl
      · exact .inl ⟨htype, hpub.resolve_left fun hne => hne rfl⟩
      · exact .inr ⟨htype, hpriv.resolve_left fun hne => hne rfl⟩
    · rw [Nat.and_one_is_mod] at hodd
      omega
  · rintro ⟨hn, hstruc, hkey, rfl⟩
    have hlen := hkey.inside
    have hpower := (powerOfTwo_of_check hkey.bitlen.1).mpr hkey.bitlen.2
    have hodd : ¬ le32At zData (z + 16) &&& 1 = 0 := by
      rw [Nat.and_one_is_mod]
      have := hkey.ePub.2
      omega
    have hne : capiPrivateKeyBlob ≠ capiPublicKeyBlob := by decide
    obtain ⟨bType, htype, hvalid, hmagic, hpub, hpriv⟩ : ∃ bType, zData[z]? = some bType ∧
        (bType = capiPublicKeyBlob ∨ bType = capiPrivateKeyBlob) ∧
        (le32At zData (z + 8) = capiRsa1Magic ∨ le32At zData (z + 8) = capiRsa2Magic) ∧
        (¬ bType = capiPublicKeyBlob ∨ le32At zData (z + 8) = capiRsa1Magic) ∧
        (¬ bType = capiPrivateKeyBlob ∨ le32At zData (z + 8) = capiRsa2Magic) := by
      rcases hkey.magic with ⟨htype, hmagic⟩ | ⟨htype, hmagic⟩
      · exact ⟨_, htype, .inl rfl, .inl hmagic, .inr hmagic, .inl hne.symm⟩
      · exact ⟨_, htype, .inr rfl, .inr hmagic, .inl hne, .inr hmagic⟩
    exact ⟨hn, bType, htype, hvalid, _, hstruc.bVersion, rfl, _, hstruc.reserved₁, rfl, _,
      hstruc.reserved₂, rfl, _, ⟨by omega, rfl⟩, hstruc.aiKeyAlg, _, ⟨by omega, rfl⟩, _,
      ⟨by omega, rfl⟩, _, ⟨by omega, rfl⟩, hmagic, hpub, hpriv, ⟨hkey.bitlen.1, hpower⟩,
      ⟨hkey.ePub.1, hodd⟩, by simp [headerAt, htype]⟩

theorem parseHeader_beyond (hstart : 20 ≤ n → z + 8 ≤ zData.length) :
    (parseHeader zData z n).result = .error .beyond ↔
      20 ≤ n ∧ SigningStruc zData z ∧ zData.length < z + 20 := by
  by_cases hn : 20 ≤ n
  case neg => simp [parseHeader, hn, require]
  have hlen := hstart hn
  have h0 : ¬ zData.length ≤ z := by omega
  have h1 : ¬ zData.length ≤ z + 1 := by omega
  have h2 : ¬ zData.length ≤ z + 2 := by omega
  have h3 : ¬ zData.length ≤ z + 3 := by omega
  have h4 : ¬ zData.length < z + 4 + 4 := by omega
  simp only [parseHeader, bind_eq_error, require_ok, readByte_ok, readLE32_ok,
    readByte_beyond, readLE32_beyond, require_beyond, h0, h1, h2, h3, h4, false_or,
    Traced.pure_result, reduceCtorEq, and_false, exists_false, or_false, exists_const,
    decide_eq_true_eq, Bool.or_eq_true]
  constructor
  · rintro ⟨hn, bType, htype, hvalid, -, hversion, rfl, -, hr₁, rfl, -, hr₂, rfl, -,
      ⟨-, rfl⟩, halg, hbeyond⟩
    refine ⟨hn, ⟨hlen, by rcases hvalid with rfl | rfl <;> simp [htype], hversion, hr₁, hr₂,
      halg⟩, ?_⟩
    rcases hbeyond with hlt | ⟨-, -, hlt | ⟨-, -, hlt⟩⟩
    · omega
    · omega
    · omega
  · rintro ⟨hn, hstruc, hlt⟩
    obtain ⟨bType, htype, hvalid⟩ : ∃ bType, zData[z]? = some bType ∧
        (bType = capiPublicKeyBlob ∨ bType = capiPrivateKeyBlob) := by
      rcases hstruc.bType with htype | htype
      · exact ⟨_, htype, .inl rfl⟩
      · exact ⟨_, htype, .inr rfl⟩
    refine ⟨hn, bType, htype, hvalid, _, hstruc.bVersion, rfl, _, hstruc.reserved₁, rfl, _,
      hstruc.reserved₂, rfl, _, ⟨by omega, rfl⟩, hstruc.aiKeyAlg, ?_⟩
    by_cases h8 : zData.length < z + 8 + 4
    · exact .inl h8
    · refine .inr ⟨_, ⟨by omega, rfl⟩, ?_⟩
      by_cases h12 : zData.length < z + 12 + 4
      · exact .inl h12
      · exact .inr ⟨_, ⟨by omega, rfl⟩, by omega⟩

def partAt (zData : Bytes) (i n : ℕ) : Bytes := ((zData.drop i).take n).reverse

def pubBlobAt (zData : Bytes) (z nMod : ℕ) : Bytes :=
  dotnetHeader (20 + nMod) ++ publicForm ((zData.drop z).take (20 + nMod))

/-- The key in a blob at an offset. -/
def keyAt (zData : Bytes) (z : ℕ) (h : CapiHeader) : RsaKey :=
  let key : RsaKey := ⟨wrapInt h.bitlen, h.ePub, false, pubBlobAt zData z h.nMod,
    partAt zData (z + 20) h.nMod, none, none, none, none, none, none⟩
  if h.bType = capiPublicKeyBlob then key
  else
    let off := z + 20 + h.nMod
    { key with
      bHasPrivate := true
      zPrime1 := some (partAt zData off h.nHalf)
      zPrime2 := some (partAt zData (off + h.nHalf) h.nHalf)
      zExp1 := some (partAt zData (off + 2 * h.nHalf) h.nHalf)
      zExp2 := some (partAt zData (off + 3 * h.nHalf) h.nHalf)
      zCoeff := some (partAt zData (off + 4 * h.nHalf) h.nHalf)
      zPrivExp := some (partAt zData (off + 5 * h.nHalf) h.nMod) }

theorem copyParts_ok {key : RsaKey} :
    (copyParts zData z h).result = .ok key ↔
      z + h.nBlob ≤ zData.length ∧ key = keyAt zData z h := by
  by_cases hpub : h.bType = capiPublicKeyBlob
  · simp only [copyParts, hpub, if_true, Traced.bind_eq_ok, readBytes_ok, rsaAllocComponent_ok,
      request_result, Traced.pure_result, Except.ok.injEq, CapiHeader.nBlob, keyAt]
    constructor
    · rintro ⟨-, -, src, ⟨hsrc, rfl⟩, zModulus, ⟨-, rfl⟩, rfl⟩
      exact ⟨hsrc, rfl⟩
    · rintro ⟨hlen, rfl⟩
      exact ⟨(), trivial, _, ⟨hlen, rfl⟩, _, ⟨by omega, rfl⟩, rfl⟩
  · simp only [copyParts, hpub, if_false, Traced.bind_eq_ok, readBytes_ok,
      rsaAllocComponent_ok, request_result, Traced.pure_result, Except.ok.injEq,
      CapiHeader.nBlob, keyAt]
    constructor
    · rintro ⟨-, -, src, ⟨-, rfl⟩, zModulus, ⟨-, rfl⟩, -, ⟨-, rfl⟩, -, ⟨-, rfl⟩, -, ⟨-, rfl⟩,
        -, ⟨-, rfl⟩, -, ⟨-, rfl⟩, zPrivExp, ⟨hlast, rfl⟩, rfl⟩
      exact ⟨by omega, rfl⟩
    · rintro ⟨hlen, rfl⟩
      exact ⟨(), trivial, _, ⟨by omega, rfl⟩, _, ⟨by omega, rfl⟩, _, ⟨by omega, rfl⟩, _,
        ⟨by omega, rfl⟩, _, ⟨by omega, rfl⟩, _, ⟨by omega, rfl⟩, _, ⟨by omega, rfl⟩, _,
        ⟨by omega, rfl⟩, rfl⟩

theorem readBytes_error {i : ℕ} : ∀ e, (readBytes zData i n).result = .error e → e = .beyond := by
  intro e he
  by_cases hin : i + n ≤ zData.length
  · rw [readBytes_ok.mpr ⟨hin, rfl⟩] at he
    cases he
  · rw [readBytes_beyond.mpr (by omega)] at he
    cases he
    rfl

theorem rsaAllocComponent_error {i : ℕ} : ∀ e,
    (rsaAllocComponent zData i n).result = .error e → e = .beyond := by
  refine errors_bind (by simp) fun _ _ => errors_bind readBytes_error ?_
  simp

theorem copyParts_error : ∀ e, (copyParts zData z h).result = .error e → e = .beyond := by
  refine errors_bind (by simp) fun _ _ => ?_
  refine errors_bind readBytes_error fun _ _ => ?_
  refine errors_bind rsaAllocComponent_error fun _ _ => ?_
  by_cases hpub : h.bType = capiPublicKeyBlob
  · simp [hpub]
  · simp only [hpub, if_false]
    refine errors_bind rsaAllocComponent_error fun _ _ => ?_
    refine errors_bind rsaAllocComponent_error fun _ _ => ?_
    refine errors_bind rsaAllocComponent_error fun _ _ => ?_
    refine errors_bind rsaAllocComponent_error fun _ _ => ?_
    refine errors_bind rsaAllocComponent_error fun _ _ => ?_
    refine errors_bind rsaAllocComponent_error fun _ _ => ?_
    simp

theorem copyParts_beyond :
    (copyParts zData z h).result = .error .beyond ↔ zData.length < z + h.nBlob := by
  rcases hr : (copyParts zData z h).result with e | key
  · have he := copyParts_error e hr
    constructor
    · intro _
      by_contra hle
      rw [copyParts_ok.mpr ⟨by omega, rfl⟩] at hr
      cases hr
    · intro _
      rw [he]
  · have hle := (copyParts_ok.mp hr).1
    simp only [reduceCtorEq, false_iff]
    omega

/-! ## Memory -/

/-- The requests that `Th8_SafeAlloc` leaves to the platform. -/
def Request.Obtainable : Request → Prop
  | .rsaKey => True
  | .buffer nByte => 0 < nByte ∧ nByte ≤ mxAlloc

theorem mem_copyParts_ops {op : Request} (hop : op ∈ (copyParts zData z h).ops) :
    op = .buffer (12 + (20 + h.nMod)) ∨ op = .buffer h.nMod ∨ op = .buffer h.nHalf := by
  by_cases hpub : h.bType = capiPublicKeyBlob
  · simp only [copyParts, hpub, if_true, mem_bind_ops, request_ops,
      rsaAllocComponent_ops, readBytes_ops, pure_ops, mem_singleton,
      not_mem_nil, and_false, exists_false, or_false, false_or] at hop
    rcases hop with h1 | ⟨-, -, -, -, h2⟩
    · exact .inl h1
    · exact .inr (.inl h2)
  · simp only [copyParts, hpub, if_false, mem_bind_ops, request_ops,
      rsaAllocComponent_ops, readBytes_ops, pure_ops, mem_singleton,
      not_mem_nil, and_false, exists_false, or_false, false_or] at hop
    grind

theorem copyParts_ops : .buffer (12 + (20 + h.nMod)) ∈ (copyParts zData z h).ops :=
  mem_bind_ops.mpr (.inl (by simp))

theorem copyParts_obtainable (hbits : 1024 ≤ h.bitlen) :
    (∀ op ∈ (copyParts zData z h).ops, op.Obtainable) ↔ 12 + (20 + h.nMod) ≤ mxAlloc := by
  constructor
  · intro hops
    exact (hops _ copyParts_ops).2
  · intro hle op hop
    have hmod : h.nMod = h.bitlen / 8 := rfl
    have hhalf : h.nHalf = h.bitlen / 16 := rfl
    rcases mem_copyParts_ops hop with rfl | rfl | rfl
    · exact ⟨by omega, hle⟩
    · exact ⟨by omega, by omega⟩
    · exact ⟨by omega, by omega⟩

end Parser

section Outcome

variable {x : Run RsaKey}

variable {granted : ℕ → Bool} {k : ℕ} {op : Request}

theorem grant_error {e : Stop} (h : grant granted k op = .error e) : e = .noMemory := by
  cases op with
  | rsaKey =>
    simp only [grant] at h
    split at h
    · cases h
    · cases h
      rfl
  | buffer n =>
    simp only [grant] at h
    split at h
    · cases h
    · cases h
      rfl

theorem grant_ok {k' : ℕ} (h : grant granted k op = .ok k') : op.Obtainable := by
  cases op with
  | rsaKey => trivial
  | buffer n =>
    by_cases hn : n = 0 ∨ mxAlloc < n
    · simp [grant, safeAlloc, hn] at h
    · exact ⟨by omega, by omega⟩

theorem grant_of_obtainable (h : op.Obtainable) (k : ℕ) :
    grant (fun _ => true) k op = .ok (k + 1) := by
  cases op with
  | rsaKey => rfl
  | buffer n =>
    have hn : ¬ (n = 0 ∨ mxAlloc < n) := by
      have h1 : 0 < n := h.1
      have h2 : n ≤ mxAlloc := h.2
      omega
    simp [grant, safeAlloc, hn]

variable {ops : List Request}

theorem foldlM_grant_error {e : Stop} (h : ops.foldlM (grant granted) k = .error e) :
    e = .noMemory := by
  induction ops generalizing k with
  | nil => cases h
  | cons op ops ih =>
    rw [foldlM_cons] at h
    rcases hop : grant granted k op with e' | k'
    · rw [hop] at h
      cases h
      exact grant_error hop
    · rw [hop] at h
      exact ih h

theorem foldlM_grant_ok {k' : ℕ} (h : ops.foldlM (grant granted) k = .ok k') :
    ∀ op ∈ ops, op.Obtainable := by
  induction ops generalizing k with
  | nil => simp
  | cons op ops ih =>
    rw [foldlM_cons] at h
    rcases hop : grant granted k op with e | k₁
    · rw [hop] at h
      cases h
    · rw [hop] at h
      exact forall_mem_cons.mpr ⟨grant_ok hop, ih h⟩

theorem foldlM_grant_of_obtainable (h : ∀ op ∈ ops, op.Obtainable) (k : ℕ) :
    ops.foldlM (grant fun _ => true) k = .ok (k + ops.length) := by
  induction ops generalizing k with
  | nil => rfl
  | cons op ops ih =>
    rw [forall_mem_cons] at h
    rw [foldlM_cons, grant_of_obtainable h.1, ok_bind, ih h.2, length_cons]
    congr 1
    omega

theorem exists_outcome_iff {r : Except Stop RsaKey} (hr : r ≠ .error .noMemory) :
    (∃ granted, outcome granted x = r) ↔ (∀ op ∈ x.ops, op.Obtainable) ∧ x.result = r := by
  constructor
  · rintro ⟨granted, h⟩
    rw [outcome, Traced.exec] at h
    rcases hops : x.ops.foldlM (grant granted) 0 with e | k
    · rw [hops] at h
      obtain rfl := foldlM_grant_error hops
      exact absurd h.symm hr
    · rw [hops] at h
      refine ⟨foldlM_grant_ok hops, ?_⟩
      rcases hx : x.result with e | a
      · simpa [hx] using h
      · simpa [hx] using h
  · rintro ⟨hops, rfl⟩
    refine ⟨fun _ => true, ?_⟩
    rw [outcome, exec_of_granted _ (foldlM_grant_of_obtainable hops 0)]
    rcases x.result with e | a
    · rfl
    · rfl

end Outcome

end Keys

end Th8
