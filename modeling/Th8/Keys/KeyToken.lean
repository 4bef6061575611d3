import Th8.Keys.BlobBounds

/-!
# Public key tokens

A token is cut from the digest of the public key's blob, behind the header of .NET.  For a
raw blob that blob is made anew, and then says nothing but the number of bits, the exponent
and the modulus.  For a wrapped blob it is a copy of as many bytes as the size field says,
so bytes behind the modulus are hashed with it, and a wrapped private key is hashed whole.
-/

namespace Th8

open Support List

namespace Keys

variable {zData : Bytes} {z n : ℕ} {key : RsaKey}

def publicKeyBlob (bitlen ePub : ℕ) (zModulus : Bytes) : Bytes :=
  dotnetHeader (20 + bitlen / 8) ++ ([capiPublicKeyBlob, capiBVersion, 0, 0] ++
    storeLe 4 capiCalgRsaSign ++ storeLe 4 capiRsa1Magic ++ storeLe 4 bitlen ++
      storeLe 4 ePub ++ zModulus.reverse)

theorem storeLe_loadLe (p : Bytes) : storeLe p.length (loadLe p) = p := by
  induction p with
  | nil => rfl
  | cons b p ih =>
    have hb := b.toNat_lt
    have hlow : UInt8.ofNat (b.toNat + 256 * loadLe p) = b := by
      apply UInt8.toNat_inj.mp
      rw [UInt8.toNat_ofNat']
      omega
    have hhigh : (b.toNat + 256 * loadLe p) >>> 8 = loadLe p := by
      rw [Nat.shiftRight_eq_div_pow]
      omega
    rw [length_cons, storeLe_succ, loadLe_cons, hlow, hhigh, ih]

theorem take_four_eq {i : ℕ} (h : i + 4 ≤ zData.length) :
    (zData.drop i).take 4 = storeLe 4 (le32At zData i) := by
  have hlen : ((zData.drop i).take 4).length = 4 := by
    rw [length_take, length_drop]
    omega
  rw [le32At, ← storeLe_loadLe ((zData.drop i).take 4), hlen, loadLe_storeLe]
  rw [Nat.mod_eq_of_lt]
  have hlt := loadLe_lt ((zData.drop i).take 4)
  rwa [hlen] at hlt

theorem drop_eq_take_append (i k : ℕ) :
    zData.drop i = (zData.drop i).take k ++ zData.drop (i + k) := by
  rw [← drop_drop, take_append_drop]

theorem blob_eq (hstruc : SigningStruc zData z) (hkey : RsaPubKey zData z) :
    zData.drop z = [(headerAt zData z).bType, capiBVersion, 0, 0] ++
      storeLe 4 capiCalgRsaSign ++ storeLe 4 (le32At zData (z + 8)) ++
        storeLe 4 (headerAt zData z).bitlen ++ storeLe 4 (headerAt zData z).ePub ++
          zData.drop (z + 20) := by
  have hlen := hkey.inside
  have hfirst : (zData.drop z).take 4 = [(headerAt zData z).bType, capiBVersion, 0, 0] := by
    have h0 : (zData.drop z)[0]? = some (headerAt zData z).bType := by
      rw [getElem?_drop, Nat.add_zero, headerAt]
      rcases hstruc.bType with h | h <;> rw [h] <;> rfl
    have h1 : (zData.drop z)[1]? = some capiBVersion := by
      rw [getElem?_drop, hstruc.bVersion]
    have h2 : (zData.drop z)[2]? = some 0 := by rw [getElem?_drop, hstruc.reserved₁]
    have h3 : (zData.drop z)[3]? = some 0 := by rw [getElem?_drop, hstruc.reserved₂]
    rcases hw : zData.drop z with _ | ⟨a, _ | ⟨b, _ | ⟨c, _ | ⟨d, w⟩⟩⟩⟩ <;> simp_all
  have h4 := take_four_eq (show z + 4 + 4 ≤ zData.length by omega)
  have h8 := take_four_eq (show z + 8 + 4 ≤ zData.length by omega)
  have h12 := take_four_eq (show z + 12 + 4 ≤ zData.length by omega)
  have h16 := take_four_eq (show z + 16 + 4 ≤ zData.length by omega)
  rw [drop_eq_take_append z 4, hfirst, drop_eq_take_append (z + 4) 4, h4, hstruc.aiKeyAlg,
    drop_eq_take_append (z + 4 + 4) 4, h8, drop_eq_take_append (z + 8 + 4) 4, h12,
    drop_eq_take_append (z + 12 + 4) 4, h16]
  simp only [headerAt, append_assoc]

theorem pubBlobAt_eq (hstruc : SigningStruc zData z) (hkey : RsaPubKey zData z) :
    pubBlobAt zData z (headerAt zData z).nMod =
      publicKeyBlob (headerAt zData z).bitlen (headerAt zData z).ePub
        (partAt zData (z + 20) (headerAt zData z).nMod) := by
  rw [pubBlobAt, publicKeyBlob, partAt, reverse_reverse, blob_eq hstruc hkey]
  congr 1
  rw [Nat.add_comm 20]
  rfl

/-! ## What is hashed -/

def Wrapped (zData : Bytes) : Prop := le32At zData 0 = dotnetSigAlgRsa

instance (zData : Bytes) : Decidable (Wrapped zData) := inferInstanceAs (Decidable (_ = _))

def capiOffset (zData : Bytes) : ℕ := if Wrapped zData then 12 else 0

def capiHeader (zData : Bytes) : CapiHeader := headerAt zData (capiOffset zData)

def hashedCopy (zData : Bytes) : Bytes := zData.take (wrappedSize (cbPublicKey zData))

def Tight (zData : Bytes) : Prop :=
  Wrapped zData → cbPublicKey zData = 20 + (capiHeader zData).nMod ∧
    (capiHeader zData).bType = capiPublicKeyBlob

structure Loaded (zData : Bytes) (key : RsaKey) : Prop where
  inside : 20 ≤ zData.length
  struc : SigningStruc zData (capiOffset zData)
  pubKey : RsaPubKey zData (capiOffset zData)
  fits : capiOffset zData + (capiHeader zData).nBlob ≤ zData.length
  wrapper : Wrapped zData → DotnetHeader zData ∧ wrappedSize (cbPublicKey zData) ≤ zData.length
  nBits : key.nBits = wrapInt (capiHeader zData).bitlen
  ePub : key.ePub = (capiHeader zData).ePub
  zModulus : key.zModulus = partAt zData (capiOffset zData + 20) (capiHeader zData).nMod
  zPubBlob : key.zPubBlob = if Wrapped zData then hashedCopy zData else
    pubBlobAt zData (capiOffset zData) (capiHeader zData).nMod

section

variable (h : CapiHeader)

include h

theorem keyAt_nBits : (keyAt zData z h).nBits = wrapInt h.bitlen := by
  simp only [keyAt]
  split <;> simp only

theorem keyAt_ePub : (keyAt zData z h).ePub = h.ePub := by
  unfold keyAt
  split <;> rfl

theorem keyAt_zModulus : (keyAt zData z h).zModulus = partAt zData (z + 20) h.nMod := by
  unfold keyAt
  split <;> rfl

theorem keyAt_zPubBlob : (keyAt zData z h).zPubBlob = pubBlobAt zData z h.nMod := by
  simp only [keyAt]
  split
  · rfl
  · rfl

end

theorem loaded_of_outcome {granted : ℕ → Bool}
    (h : outcome granted (rsaKeyLoad zData) = .ok key) : Loaded zData key := by
  have hres := ((exists_outcome_iff (by simp)).mp ⟨granted, h⟩).2
  by_cases hlen : 20 ≤ zData.length
  case neg =>
    have hshort : (rsaKeyLoad zData).result = .error (.refused "SNK: invalid arguments") := by
      simp [rsaKeyLoad, require, hlen]
    rw [hshort] at hres
    cases hres
  rw [rsaKeyLoad_eq hlen, Traced.bind_result] at hres
  by_cases hwrapped : Wrapped zData
  · have hoff : capiOffset zData = 12 := if_pos hwrapped
    have hload : (loadWrapped zData).result = .ok key := by
      simpa [if_pos (show le32At zData 0 = dotnetSigAlgRsa from hwrapped)] using hres
    obtain ⟨hhash, hsize, key₀, hparse, rfl⟩ := (loadWrapped_ok hlen).mp hload
    obtain ⟨⟨-, hstruc, hkey, -⟩, hin, rfl⟩ := rsaParseCapi_ok.mp hparse
    refine ⟨hlen, hoff ▸ hstruc, hoff ▸ hkey, ?_, fun _ => ⟨⟨hlen, hwrapped, hhash⟩, hsize.2⟩,
      ?_, ?_, ?_, ?_⟩
    · rwa [capiHeader, hoff]
    · rw [capiHeader, hoff, keyAt_nBits]
    · rw [capiHeader, hoff, keyAt_ePub]
    · rw [capiHeader, hoff, keyAt_zModulus]
    · rw [if_pos hwrapped]
      rfl
  · have hoff : capiOffset zData = 0 := if_neg hwrapped
    have hparse : (rsaParseCapi zData 0 zData.length).result = .ok key := by
      rw [if_neg (show ¬ le32At zData 0 = dotnetSigAlgRsa from hwrapped)] at hres
      by_cases htype : zData[0]? = some capiPublicKeyBlob ∨ zData[0]? = some capiPrivateKeyBlob
      · simpa [htype] using hres
      · simp [htype] at hres
    obtain ⟨⟨-, hstruc, hkey, -⟩, hin, rfl⟩ := rsaParseCapi_ok.mp hparse
    refine ⟨hlen, hoff ▸ hstruc, hoff ▸ hkey, ?_, fun hw => absurd hw hwrapped, ?_, ?_, ?_, ?_⟩
    · rwa [capiHeader, hoff]
    · rw [capiHeader, hoff, keyAt_nBits]
    · rw [capiHeader, hoff, keyAt_ePub]
    · rw [capiHeader, hoff, keyAt_zModulus]
    · rw [if_neg hwrapped, capiHeader, hoff, keyAt_zPubBlob]

namespace Loaded

section

variable (h : Loaded zData key)

include h

theorem nMod_le : capiOffset zData + (20 + (capiHeader zData).nMod) ≤ zData.length := by
  have hfits := h.fits
  unfold CapiHeader.nBlob at hfits
  split at hfits
  · exact hfits
  · omega

theorem pubBlob_eq :
    pubBlobAt zData (capiOffset zData) (capiHeader zData).nMod =
      publicKeyBlob (capiHeader zData).bitlen key.ePub key.zModulus := by
  rw [h.ePub, h.zModulus]
  exact pubBlobAt_eq h.struc h.pubKey

theorem take_header (hw : Wrapped zData) : zData.take 12 = dotnetHeader (cbPublicKey zData) := by
  have hlen := h.inside
  have hheader := (h.wrapper hw).1
  have h0 := take_four_eq (show 0 + 4 ≤ zData.length by omega)
  have h4 := take_four_eq (show 4 + 4 ≤ zData.length by omega)
  have h8 := take_four_eq (show 8 + 4 ≤ zData.length by omega)
  rw [hheader.sigAlgId, drop_zero] at h0
  rw [hheader.hashAlgId] at h4
  rw [show 12 = 4 + (4 + 4) from rfl, take_add, take_add, drop_drop, h0, h4, h8,
    dotnetHeader, cbPublicKey, append_assoc]

theorem hashedCopy_eq_iff (hw : Wrapped zData) :
    hashedCopy zData = publicKeyBlob (capiHeader zData).bitlen key.ePub key.zModulus ↔
      Tight zData := by
  have hoff : capiOffset zData = 12 := if_pos hw
  have hlen := h.nMod_le
  have hcb : cbPublicKey zData < 2 ^ 32 := le32At_lt zData 8
  have hin := (h.wrapper hw).2
  rw [← h.pubBlob_eq]
  have hsize : (pubBlobAt zData (capiOffset zData) (capiHeader zData).nMod).length =
      32 + (capiHeader zData).nMod := by
    simp only [pubBlobAt, dotnetHeader, publicForm, length_append, length_storeLe,
      length_cons, length_take, length_drop]
    omega
  constructor
  · intro heq _
    have htaken : wrappedSize (cbPublicKey zData) = 32 + (capiHeader zData).nMod := by
      rw [← hsize, ← heq, hashedCopy, length_take, Nat.min_eq_left hin]
    refine ⟨by unfold wrappedSize at htaken; omega, ?_⟩
    have hbyte : (hashedCopy zData)[12]? = some capiPublicKeyBlob := by
      rw [heq]
      rfl
    have hbehind : 12 < wrappedSize (cbPublicKey zData) := by omega
    rw [hashedCopy, getElem?_take_of_lt hbehind] at hbyte
    rw [capiHeader, hoff, headerAt, hbyte]
    rfl
  · intro htight
    obtain ⟨hcbEq, htype⟩ := htight hw
    have hbits : (capiHeader zData).bitlen < 2 ^ 32 := le32At_lt zData _
    have hwrap : wrappedSize (cbPublicKey zData) = 12 + (20 + (capiHeader zData).nMod) := by
      unfold wrappedSize CapiHeader.nMod at *
      omega
    have hmagic : le32At zData (12 + 8) = capiRsa1Magic := by
      rcases h.pubKey.magic with ⟨-, hm⟩ | ⟨hprivate, -⟩
      · rwa [hoff] at hm
      · have hboth : capiPrivateKeyBlob = capiPublicKeyBlob := by
          rw [capiHeader, headerAt, hprivate] at htype
          exact htype
        exact absurd hboth (by decide)
    have hparts := blob_eq (hoff ▸ h.struc) (hoff ▸ h.pubKey)
    rw [hashedCopy, hwrap, take_add, h.take_header hw, hcbEq, pubBlobAt, hoff]
    congr 1
    rw [hparts, hmagic, ← hoff]
    have htype' : (headerAt zData (capiOffset zData)).bType = capiPublicKeyBlob := htype
    rw [htype', Nat.add_comm 20]
    rfl

theorem zPubBlob_eq_iff :
    key.zPubBlob = publicKeyBlob (capiHeader zData).bitlen key.ePub key.zModulus ↔ Tight zData := by
  rw [h.zPubBlob]
  by_cases hw : Wrapped zData
  · rw [if_pos hw]
    exact h.hashedCopy_eq_iff hw
  · rw [if_neg hw, h.pubBlob_eq]
    exact iff_of_true rfl fun hw' => absurd hw' hw

end

theorem bitlen_lt (zData : Bytes) : (capiHeader zData).bitlen < 2 ^ 32 :=
  le32At_lt zData _

end Loaded

theorem wrapInt_inj {m n : ℕ} (hm : m < 2 ^ 32) (hn : n < 2 ^ 32)
    (h : wrapInt m = wrapInt n) : m = n := by
  have hmod := congrArg (· % ((2 ^ 32 : ℕ) : ℤ)) h
  simp only [wrapInt, Int.bmod_emod] at hmod
  omega

/-! ## Tokens -/

/-- The two blobs are hashed alike: both are tight, or both are wrapped and the bytes that
the size fields mark off are the same. -/
def HashedAlike (a b : Bytes) : Prop :=
  Tight a ∧ Tight b ∨ Wrapped a ∧ Wrapped b ∧ hashedCopy a = hashedCopy b

theorem zPubBlob_eq_iff_hashedAlike {a b : Bytes} {keyA keyB : RsaKey} (ha : Loaded a keyA)
    (hb : Loaded b keyB) (hbits : keyA.nBits = keyB.nBits) (he : keyA.ePub = keyB.ePub)
    (hmod : keyA.zModulus = keyB.zModulus) :
    keyA.zPubBlob = keyB.zPubBlob ↔ HashedAlike a b := by
  have hlen : (capiHeader a).bitlen = (capiHeader b).bitlen := by
    rw [ha.nBits, hb.nBits] at hbits
    exact wrapInt_inj (Loaded.bitlen_lt a) (Loaded.bitlen_lt b) hbits
  have hblob : publicKeyBlob (capiHeader a).bitlen keyA.ePub keyA.zModulus =
      publicKeyBlob (capiHeader b).bitlen keyB.ePub keyB.zModulus := by
    rw [hlen, he, hmod]
  have hcopy : ∀ {z : Bytes} {key : RsaKey}, Loaded z key → ¬ Tight z →
      Wrapped z ∧ key.zPubBlob = hashedCopy z := by
    intro z key hz hnot
    have hw : Wrapped z := by
      by_contra hw
      exact hnot fun hw' => absurd hw' hw
    exact ⟨hw, by rw [hz.zPubBlob, if_pos hw]⟩
  constructor
  · intro heq
    by_cases htight : Tight a
    · refine .inl ⟨htight, hb.zPubBlob_eq_iff.mp ?_⟩
      rw [← heq, ← hblob]
      exact ha.zPubBlob_eq_iff.mpr htight
    · have htightB : ¬ Tight b := by
        intro htightB
        refine htight (ha.zPubBlob_eq_iff.mp ?_)
        rw [heq, hblob]
        exact hb.zPubBlob_eq_iff.mpr htightB
      obtain ⟨hwA, hA⟩ := hcopy ha htight
      obtain ⟨hwB, hB⟩ := hcopy hb htightB
      exact .inr ⟨hwA, hwB, by rw [← hA, ← hB, heq]⟩
  · rintro (⟨htightA, htightB⟩ | ⟨hwA, hwB, hsame⟩)
    · rw [ha.zPubBlob_eq_iff.mpr htightA, hb.zPubBlob_eq_iff.mpr htightB, hblob]
    · rw [ha.zPubBlob, hb.zPubBlob, if_pos hwA, if_pos hwB, hsame]

theorem rsaKeyToken_eq_iff {keyA keyB : RsaKey} :
    (∀ sha1, rsaKeyToken sha1 keyA = rsaKeyToken sha1 keyB) ↔ keyA.zPubBlob = keyB.zPubBlob := by
  constructor
  · intro h
    by_contra hne
    have htokens := h fun z _ => if z = keyA.zPubBlob then 1 else 0
    simp [rsaKeyToken, ofFn_succ, Ne.symm hne] at htokens
  · intro h sha1
    rw [rsaKeyToken, rsaKeyToken, h]

/-- Two blobs with the same number of bits, exponent and modulus have the same token for
every digest exactly when they are hashed alike. -/
theorem token_eq_iff_hashedAlike {grantedA grantedB : ℕ → Bool} {a b : Bytes}
    {keyA keyB : RsaKey} (ha : outcome grantedA (rsaKeyLoad a) = .ok keyA)
    (hb : outcome grantedB (rsaKeyLoad b) = .ok keyB) (hbits : keyA.nBits = keyB.nBits)
    (he : keyA.ePub = keyB.ePub) (hmod : keyA.zModulus = keyB.zModulus) :
    (∀ sha1, rsaKeyToken sha1 keyA = rsaKeyToken sha1 keyB) ↔ HashedAlike a b :=
  rsaKeyToken_eq_iff.trans (zPubBlob_eq_iff_hashedAlike (loaded_of_outcome ha)
    (loaded_of_outcome hb) hbits he hmod)

def sampleModulus : Bytes := List.replicate 128 1

def samplePublic : Bytes :=
  [capiPublicKeyBlob, capiBVersion, 0, 0] ++ storeLe 4 capiCalgRsaSign ++
    storeLe 4 capiRsa1Magic ++ storeLe 4 1024 ++ storeLe 4 65537 ++ sampleModulus

/-- The same behind the header of .NET, and with the number `nExtra` of zeros behind the
modulus, which the size field counts. -/
def sampleWrapped (nExtra : ℕ) : Bytes :=
  dotnetHeader (148 + nExtra) ++ samplePublic ++ List.replicate nExtra 0

def sampleKey (zPubBlob : Bytes) : RsaKey :=
  ⟨1024, 65537, false, zPubBlob, sampleModulus, none, none, none, none, none, none⟩

theorem outcome_samplePublic :
    outcome (fun _ => true) (rsaKeyLoad samplePublic) = .ok (sampleKey (sampleWrapped 0)) := by
  decide +kernel

theorem outcome_sampleWrapped_zero :
    outcome (fun _ => true) (rsaKeyLoad (sampleWrapped 0)) = .ok (sampleKey (sampleWrapped 0)) := by
  decide +kernel

theorem outcome_sampleWrapped_one :
    outcome (fun _ => true) (rsaKeyLoad (sampleWrapped 1)) = .ok (sampleKey (sampleWrapped 1)) := by
  decide +kernel

theorem token_sampleWrapped_zero :
    (∀ sha1, rsaKeyToken sha1 (sampleKey (sampleWrapped 0)) =
      rsaKeyToken sha1 (sampleKey (sampleWrapped 0))) ↔
        HashedAlike samplePublic (sampleWrapped 0) :=
  token_eq_iff_hashedAlike outcome_samplePublic outcome_sampleWrapped_zero rfl rfl rfl

/-- A byte behind the modulus changes the token. -/
theorem token_trailingByte :
    ¬ ∀ (granted : ℕ → Bool) (a b : Bytes) (keyA keyB : RsaKey),
      outcome granted (rsaKeyLoad a) = .ok keyA → outcome granted (rsaKeyLoad b) = .ok keyB →
        keyA.nBits = keyB.nBits → keyA.ePub = keyB.ePub → keyA.zModulus = keyB.zModulus →
          ∀ sha1, rsaKeyToken sha1 keyA = rsaKeyToken sha1 keyB := by
  intro h
  have htokens := h _ _ _ _ _ outcome_samplePublic outcome_sampleWrapped_one rfl rfl rfl
  have hblobs := rsaKeyToken_eq_iff.mp htokens
  exact absurd hblobs (by decide)

end Keys

end Th8
