import Th8.Memory.SafeAlloc
import Th8.Support.BytePacking
import Th8.Support.Outcome

/-!
# RSA keys

`Th8_RsaKeyLoad` reads a key from a CAPI blob, or from such a blob behind the header that
.NET puts in front of it.  A pointer into the data is its offset from the first byte, so
that a look past the end of the data is one that no byte answers; the parser stops there.

The page that the parts of a key are moved to in the end, where they fit, holds what the
single buffers held.  It is left out, and so is the release of a key that was refused.
-/

namespace Th8

open Support

namespace Keys

def capiPublicKeyBlob : Byte := 0x06

def capiPrivateKeyBlob : Byte := 0x07

def capiBVersion : Byte := 0x02

def capiCalgRsaSign : ℕ := 0x00002400

def capiCalgRsaKeyx : ℕ := 0x0000a400

def capiRsa1Magic : ℕ := 0x31415352

def capiRsa2Magic : ℕ := 0x32415352

def dotnetSigAlgRsa : ℕ := 0x00002400

def dotnetHashAlgSha1 : ℕ := 0x00008004

/-- The blocks a key is made of: the structure itself, and a buffer of `nByte` bytes. -/
inductive Request where
  | rsaKey
  | buffer (nByte : ℕ)
deriving DecidableEq

/-- How loading a key stops: refused with a message, without memory, or with a look past
the end of the data. -/
inductive Stop where
  | refused (zMsg : String)
  | noMemory
  | beyond
deriving DecidableEq

abbrev Run (α : Type) := Traced Request Stop α

/-- Go on if `ok`, with an error message otherwise. -/
def require (ok : Bool) (zMsg : String) : Run Unit :=
  if ok then pure () else Traced.fail (.refused zMsg)

def readByte (zData : Bytes) (i : ℕ) : Run Byte :=
  Traced.lift (match zData[i]? with
    | some c => .ok c
    | none => .error .beyond)

/-- `n` bytes from an offset on. -/
def readBytes (zData : Bytes) (i n : ℕ) : Run Bytes :=
  Traced.lift (if i + n ≤ zData.length then .ok ((zData.drop i).take n)
    else .error .beyond)

def readLE32 (zData : Bytes) (i : ℕ) : Run ℕ := do
  let p ← readBytes zData i 4
  return loadLe p

/-- `th8RsaAllocComponent`: a copy in the reverse order (`th8ReverseCopy`). -/
def rsaAllocComponent (zData : Bytes) (i n : ℕ) : Run Bytes := do
  Traced.request (.buffer n)
  let src ← readBytes zData i n
  return src.reverse

/-! ## The parser -/

/-- `Th8_RsaKey`.  The numbers are in the order of mathematics; those of a private key are
missing from a public one. -/
structure RsaKey where
  nBits : ℤ
  ePub : ℕ
  bHasPrivate : Bool
  zPubBlob : Bytes
  zModulus : Bytes
  zPrime1 : Option Bytes
  zPrime2 : Option Bytes
  zExp1 : Option Bytes
  zExp2 : Option Bytes
  zCoeff : Option Bytes
  zPrivExp : Option Bytes
deriving DecidableEq

/-- What the two structures in front of the modulus say (`PUBLICKEYSTRUC`, `RSAPUBKEY`). -/
structure CapiHeader where
  bType : Byte
  bitlen : ℕ
  ePub : ℕ
deriving DecidableEq

namespace CapiHeader

def nMod (h : CapiHeader) : ℕ := h.bitlen / 8

def nHalf (h : CapiHeader) : ℕ := h.bitlen / 16

def nBlob (h : CapiHeader) : ℕ :=
  if h.bType = capiPublicKeyBlob then 20 + h.nMod
  else 20 + h.nMod + 5 * h.nHalf + h.nMod

end CapiHeader

/-- The checks of `th8RsaParseCapi` on the header of the `n` bytes from `z` on. -/
def parseHeader (zData : Bytes) (z n : ℕ) : Run CapiHeader := do
  require (20 ≤ n) "SNK: blob too small"
  let bType ← readByte zData z
  require (bType = capiPublicKeyBlob || bType = capiPrivateKeyBlob) "SNK: invalid blob type"
  let bVersion ← readByte zData (z + 1)
  require (bVersion = capiBVersion) "SNK: unsupported blob version"
  let reserved₁ ← readByte zData (z + 2)
  require (reserved₁ = 0) "SNK: reserved field must be zero"
  let reserved₂ ← readByte zData (z + 3)
  require (reserved₂ = 0) "SNK: reserved field must be zero"
  let aiKeyAlg ← readLE32 zData (z + 4)
  require (aiKeyAlg = capiCalgRsaSign) (if aiKeyAlg = capiCalgRsaKeyx then
      "SNK: key exchange keys (CALG_RSA_KEYX) are not valid for signing"
    else "SNK: not an RSA signing key")
  let magic ← readLE32 zData (z + 8)
  let bitlen ← readLE32 zData (z + 12)
  let ePub ← readLE32 zData (z + 16)
  require (magic = capiRsa1Magic || magic = capiRsa2Magic) "SNK: invalid RSA magic"
  require (!(bType = capiPublicKeyBlob && magic ≠ capiRsa1Magic))
    "SNK: public key blob must use RSA1 magic"
  require (!(bType = capiPrivateKeyBlob && magic ≠ capiRsa2Magic))
    "SNK: private key blob must use RSA2 magic"
  require (!(bitlen < 1024 || bitlen &&& (bitlen - 1) ≠ 0)) "SNK: invalid key bit length"
  require (!(ePub < 3 || ePub &&& 1 = 0)) "SNK: invalid public exponent"
  return ⟨bType, bitlen, ePub⟩

/-- The header that .NET puts in front of a public key of `nCapi` bytes. -/
def dotnetHeader (nCapi : ℕ) : Bytes :=
  storeLe 4 dotnetSigAlgRsa ++ storeLe 4 dotnetHashAlgSha1 ++ storeLe 4 nCapi

def publicForm (src : Bytes) : Bytes :=
  capiPublicKeyBlob :: (src.drop 1).take 7 ++ storeLe 4 capiRsa1Magic ++ src.drop 12

/-- The copies that `th8RsaParseCapi` makes once the header and the size are right. -/
def copyParts (zData : Bytes) (z : ℕ) (h : CapiHeader) : Run RsaKey := do
  Traced.request (.buffer (12 + (20 + h.nMod)))
  let src ← readBytes zData z (20 + h.nMod)
  let zPubBlob := dotnetHeader (20 + h.nMod) ++ publicForm src
  let off := z + 20
  let zModulus ← rsaAllocComponent zData off h.nMod
  let key : RsaKey :=
    ⟨wrapInt h.bitlen, h.ePub, false, zPubBlob, zModulus, none, none, none, none, none, none⟩
  if h.bType = capiPublicKeyBlob then return key
  else
    let off := off + h.nMod
    let zPrime1 ← rsaAllocComponent zData off h.nHalf
    let zPrime2 ← rsaAllocComponent zData (off + h.nHalf) h.nHalf
    let zExp1 ← rsaAllocComponent zData (off + 2 * h.nHalf) h.nHalf
    let zExp2 ← rsaAllocComponent zData (off + 3 * h.nHalf) h.nHalf
    let zCoeff ← rsaAllocComponent zData (off + 4 * h.nHalf) h.nHalf
    let zPrivExp ← rsaAllocComponent zData (off + 5 * h.nHalf) h.nMod
    return { key with
      bHasPrivate := true
      zPrime1 := some zPrime1
      zPrime2 := some zPrime2
      zExp1 := some zExp1
      zExp2 := some zExp2
      zCoeff := some zCoeff
      zPrivExp := some zPrivExp }

/-- `th8RsaParseCapi` of the blob at the offset `z` that is said to have `n` bytes. -/
def rsaParseCapi (zData : Bytes) (z n : ℕ) : Run RsaKey := do
  let h ← parseHeader zData z n
  require (h.nBlob ≤ n)
    (if h.bType = capiPublicKeyBlob then "SNK: public key blob truncated"
    else "SNK: private key blob truncated")
  copyParts zData z h

/-- The sum `12 + cbBlob`, of 32 bits. -/
def wrappedSize (cbBlob : ℕ) : ℕ := (12 + cbBlob) % 2 ^ 32

/-- The branch of `Th8_RsaKeyLoad` for a blob behind the header of .NET. -/
def loadWrapped (zData : Bytes) : Run RsaKey := do
  let hashAlgId ← readLE32 zData 4
  let cbBlob ← readLE32 zData 8
  require (hashAlgId = dotnetHashAlgSha1)
    "SNK: unsupported hash algorithm in .NET wrapper (expected SHA-1)"
  require (!(cbBlob = 0 || zData.length < wrappedSize cbBlob)) "SNK: .NET wrapper truncated"
  let key ← rsaParseCapi zData 12 cbBlob
  Traced.request (.buffer (wrappedSize cbBlob))
  let zPubBlob ← readBytes zData 0 (wrappedSize cbBlob)
  return { key with zPubBlob := zPubBlob }

def rsaKeyLoad (zData : Bytes) : Run RsaKey := do
  require (20 ≤ zData.length) "SNK: invalid arguments"
  Traced.request .rsaKey
  let sigAlgId ← readLE32 zData 0
  if sigAlgId = dotnetSigAlgRsa then loadWrapped zData
  else
    let bType ← readByte zData 0
    if bType = capiPublicKeyBlob || bType = capiPrivateKeyBlob then
      rsaParseCapi zData 0 zData.length
    else Traced.fail (.refused "SNK: unrecognized key format")

/-- The platform's answer to the requests: whether it grants the `k`-th one is `granted k`.
`Th8_SafeAlloc` refuses some of them by itself. -/
def grant (granted : ℕ → Bool) (k : ℕ) : Request → Except Stop ℕ
  | .rsaKey => if granted k then .ok (k + 1) else .error .noMemory
  | .buffer nByte => if safeAlloc (granted k) nByte then .ok (k + 1) else .error .noMemory

def outcome (granted : ℕ → Bool) (x : Run RsaKey) : Except Stop RsaKey :=
  (x.exec (grant granted) 0).map Prod.fst

/-- `Th8_RsaKeyToken`, for the digest of 20 bytes that `SHA1` computes: its last eight bytes
in the reverse order. -/
def rsaKeyToken (sha1 : Bytes → Fin 20 → Byte) (key : RsaKey) : Bytes :=
  List.ofFn fun i : Fin 8 => sha1 key.zPubBlob ⟨19 - i, by omega⟩

end Keys

end Th8
