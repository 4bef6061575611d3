import Th8.Keys.Parsing

/-!
# The bounds of a key blob

The sizes of a key come from the data.  What the parser reads is compared with the size it
was called with, and the wrapper's size field with the size of the data, but the sum in that
comparison has 32 bits: a field of at least `2 ^ 32 - 12` passes it whatever the data is.
-/

namespace Th8

open Support List Nat Traced

namespace Keys

/-! ## Reading within the data -/

section Bounds

variable {zData : Bytes} {z n : ℕ} {key : RsaKey}

theorem rsaParseCapi_ok :
    (rsaParseCapi zData z n).result = .ok key ↔
      (20 ≤ n ∧ SigningStruc zData z ∧ RsaPubKey zData z ∧ (headerAt zData z).nBlob ≤ n) ∧
        z + (headerAt zData z).nBlob ≤ zData.length ∧ key = keyAt zData z (headerAt zData z) := by
  simp only [rsaParseCapi, Traced.bind_eq_ok, parseHeader_ok, require_ok, copyParts_ok,
    decide_eq_true_eq, exists_const]
  constructor
  · rintro ⟨_, ⟨hn, hstruc, hkey, rfl⟩, hfits, hlen, rfl⟩
    exact ⟨⟨hn, hstruc, hkey, hfits⟩, hlen, rfl⟩
  · rintro ⟨⟨hn, hstruc, hkey, hfits⟩, hlen, rfl⟩
    exact ⟨_, ⟨hn, hstruc, hkey, rfl⟩, hfits, hlen, rfl⟩

theorem rsaParseCapi_beyond (hstart : 20 ≤ n → z + 8 ≤ zData.length) :
    (rsaParseCapi zData z n).result = .error .beyond ↔
      20 ≤ n ∧ SigningStruc zData z ∧ (zData.length < z + 20 ∨
        RsaPubKey zData z ∧ (headerAt zData z).nBlob ≤ n ∧
          zData.length < z + (headerAt zData z).nBlob) := by
  simp only [rsaParseCapi, bind_eq_error, parseHeader_beyond hstart, parseHeader_ok,
    require_ok, require_beyond, copyParts_beyond, decide_eq_true_eq, exists_const, false_or]
  constructor
  · rintro (⟨hn, hstruc, hlt⟩ | ⟨_, ⟨hn, hstruc, hkey, rfl⟩, hfits, hlt⟩)
    · exact ⟨hn, hstruc, .inl hlt⟩
    · exact ⟨hn, hstruc, .inr ⟨hkey, hfits, hlt⟩⟩
  · rintro ⟨hn, hstruc, hlt | ⟨hkey, hfits, hlt⟩⟩
    · exact .inl ⟨hn, hstruc, hlt⟩
    · exact .inr ⟨_, ⟨hn, hstruc, hkey, rfl⟩, hfits, hlt⟩

theorem rsaParseCapi_obtainable :
    (∀ op ∈ (rsaParseCapi zData z n).ops, op.Obtainable) ↔
      (20 ≤ n ∧ SigningStruc zData z ∧ RsaPubKey zData z ∧ (headerAt zData z).nBlob ≤ n →
        12 + (20 + (headerAt zData z).nMod) ≤ mxAlloc) := by
  simp only [rsaParseCapi, mem_bind_ops, parseHeader_ops, require_ops, parseHeader_ok,
    require_ok, decide_eq_true_eq, not_mem_nil, false_or, exists_const]
  constructor
  · rintro hops ⟨hn, hstruc, hkey, hfits⟩
    have hcopies : ∀ op ∈ (copyParts zData z (headerAt zData z)).ops, op.Obtainable :=
      fun op hop => hops op ⟨_, ⟨hn, hstruc, hkey, rfl⟩, hfits, hop⟩
    exact (copyParts_obtainable hkey.bitlen.1).mp hcopies
  · rintro hle op ⟨_, ⟨hn, hstruc, hkey, rfl⟩, hfits, hop⟩
    exact (copyParts_obtainable hkey.bitlen.1).mpr (hle ⟨hn, hstruc, hkey, hfits⟩) op hop

/-- The wrapper's size field is larger than the data, so large that the sum of 32 bits
wraps, and nothing is wrong with what is looked at before the copies are made. -/
structure SizeWraps (zData : Bytes) : Prop where
  header : DotnetHeader zData
  wraps : 2 ^ 32 - 12 ≤ cbPublicKey zData
  tooLarge : zData.length < 12 + cbPublicKey zData
  struc : SigningStruc zData 12
  goesOn : zData.length < 32 ∨
    RsaPubKey zData 12 ∧ (headerAt zData 12).bitlen < 2 ^ 31 ∧
      (2 ^ 32 - 12 < cbPublicKey zData ∨ zData.length < 12 + (headerAt zData 12).nBlob)

theorem wrappedSize_of_lt {cbBlob : ℕ} (h : cbBlob < 2 ^ 32 - 12) :
    wrappedSize cbBlob = 12 + cbBlob :=
  mod_eq_of_lt (by omega)

theorem wrappedSize_of_le {cbBlob : ℕ} (h : 2 ^ 32 - 12 ≤ cbBlob) (hlt : cbBlob < 2 ^ 32) :
    wrappedSize cbBlob = cbBlob - (2 ^ 32 - 12) := by
  unfold wrappedSize
  omega

section

variable (hlen : 20 ≤ zData.length)

include hlen

theorem loadWrapped_ok :
    (loadWrapped zData).result = .ok key ↔
      le32At zData 4 = dotnetHashAlgSha1 ∧
        (cbPublicKey zData ≠ 0 ∧ wrappedSize (cbPublicKey zData) ≤ zData.length) ∧
          ∃ key₀, (rsaParseCapi zData 12 (cbPublicKey zData)).result = .ok key₀ ∧
            key = { key₀ with zPubBlob := zData.take (wrappedSize (cbPublicKey zData)) } := by
  simp only [loadWrapped, Traced.bind_eq_ok, readLE32_ok, require_ok, readBytes_ok,
    request_result, pure_result, Except.ok.injEq, exists_const,
    decide_eq_true_eq, Bool.not_eq_true', Bool.or_eq_false_iff, decide_eq_false_iff_not,
    not_lt, drop_zero, zero_add]
  constructor
  · rintro ⟨-, ⟨-, rfl⟩, -, ⟨-, rfl⟩, hhash, hsize, key₀, hkey, -, -, ⟨-, rfl⟩, rfl⟩
    exact ⟨hhash, hsize, key₀, hkey, rfl⟩
  · rintro ⟨hhash, hsize, key₀, hkey, rfl⟩
    exact ⟨_, ⟨by omega, rfl⟩, _, ⟨by omega, rfl⟩, hhash, hsize, key₀, hkey,
      trivial, _, ⟨hsize.2, rfl⟩, rfl⟩

theorem loadWrapped_beyond :
    (loadWrapped zData).result = .error .beyond ↔
      le32At zData 4 = dotnetHashAlgSha1 ∧
        (cbPublicKey zData ≠ 0 ∧ wrappedSize (cbPublicKey zData) ≤ zData.length) ∧
          (rsaParseCapi zData 12 (cbPublicKey zData)).result = .error .beyond := by
  have h4 : ¬ zData.length < 4 + 4 := by omega
  have h8 : ¬ zData.length < 8 + 4 := by omega
  simp only [loadWrapped, bind_eq_error, readLE32_ok, readLE32_beyond, h4, h8,
    require_ok, require_beyond, readBytes_beyond, request_result, pure_result,
    exists_const, decide_eq_true_eq, Bool.not_eq_true', Bool.or_eq_false_iff,
    decide_eq_false_iff_not, not_lt, zero_add, false_or, reduceCtorEq, and_false, or_false]
  constructor
  · rintro ⟨-, ⟨-, rfl⟩, -, ⟨-, rfl⟩, hhash, hsize, hbeyond | ⟨-, -, -, hlt⟩⟩
    · exact ⟨hhash, hsize, hbeyond⟩
    · have hle := hsize.2
      exact absurd hle (not_le.mpr hlt)
  · rintro ⟨hhash, hsize, hbeyond⟩
    exact ⟨_, ⟨by omega, rfl⟩, _, ⟨by omega, rfl⟩, hhash, hsize, .inl hbeyond⟩

theorem mem_loadWrapped_ops (hhash : le32At zData 4 = dotnetHashAlgSha1)
    (hsize : cbPublicKey zData ≠ 0 ∧ wrappedSize (cbPublicKey zData) ≤ zData.length)
    {op : Request} :
    op ∈ (loadWrapped zData).ops ↔
      op ∈ (rsaParseCapi zData 12 (cbPublicKey zData)).ops ∨
        (∃ key, (rsaParseCapi zData 12 (cbPublicKey zData)).result = .ok key) ∧
          op = .buffer (wrappedSize (cbPublicKey zData)) := by
  simp only [loadWrapped, mem_bind_ops, readLE32_ops, require_ops, readLE32_ok,
    require_ok, readBytes_ops, request_ops, pure_ops, mem_singleton,
    not_mem_nil, false_or, and_false, exists_false, or_false, exists_const,
    decide_eq_true_eq, Bool.not_eq_true', Bool.or_eq_false_iff, decide_eq_false_iff_not, not_lt]
  constructor
  · rintro ⟨-, ⟨-, rfl⟩, -, ⟨-, rfl⟩, -, -, hop | ⟨key, hkey, hop⟩⟩
    · exact .inl hop
    · exact .inr ⟨⟨key, hkey⟩, hop⟩
  · intro hop
    refine ⟨_, ⟨by omega, rfl⟩, _, ⟨by omega, rfl⟩, hhash, hsize, ?_⟩
    rcases hop with hop | ⟨⟨key, hkey⟩, hop⟩
    · exact .inl hop
    · exact .inr ⟨key, hkey, hop⟩

theorem rsaKeyLoad_eq :
    rsaKeyLoad zData = Traced.request .rsaKey >>= fun _ =>
      if le32At zData 0 = dotnetSigAlgRsa then loadWrapped zData
      else if zData[0]? = some capiPublicKeyBlob ∨ zData[0]? = some capiPrivateKeyBlob then
        rsaParseCapi zData 0 zData.length
      else Traced.fail (.refused "SNK: unrecognized key format") := by
  have hsig : readLE32 zData 0 = pure (le32At zData 0) :=
    eq_pure readLE32_ops (readLE32_ok.mpr ⟨by omega, rfl⟩)
  have hfirst : zData[0]? = some zData[0] := getElem?_eq_getElem (by omega)
  have htype : readByte zData 0 = pure zData[0] := eq_pure readByte_ops (readByte_ok.mpr hfirst)
  simp only [rsaKeyLoad, hlen, decide_true, require, if_true, pure_bind, hsig, htype,
    hfirst, Option.some.injEq, Bool.or_eq_true, decide_eq_true_eq]

end

theorem dotnetHeader_first (h : le32At zData 0 = dotnetSigAlgRsa) :
    ¬ (zData[0]? = some capiPublicKeyBlob ∨ zData[0]? = some capiPrivateKeyBlob) := by
  intro htype
  rcases zData with _ | ⟨c, rest⟩
  · simp at htype
  · have hc : c.toNat % 256 = dotnetSigAlgRsa % 256 := by
      rw [← h, le32At, drop_zero, take_succ_cons, loadLe_cons]
      omega
    simp only [getElem?_cons_zero, Option.some.injEq] at htype
    rcases htype with rfl | rfl
    · exact absurd hc (by decide)
    · exact absurd hc (by decide)

/-- Whatever memory there is, the two functions look only at bytes of the data, and accept
it only if it is a key blob. -/
def ReadsWithin (zData : Bytes) : Prop :=
  ∀ granted,
    (outcome granted (rsaKeyLoad zData) ≠ .error .beyond ∧
      ∀ key, outcome granted (rsaKeyLoad zData) = .ok key → KeyBlob zData) ∧
    outcome granted (rsaParseCapi zData 0 zData.length) ≠ .error .beyond ∧
      ∀ key, outcome granted (rsaParseCapi zData 0 zData.length) = .ok key →
        CapiBlob zData 0 zData.length

theorem rsaParseCapi_within (granted : ℕ → Bool) :
    outcome granted (rsaParseCapi zData 0 zData.length) ≠ .error .beyond ∧
      ∀ key, outcome granted (rsaParseCapi zData 0 zData.length) = .ok key →
        CapiBlob zData 0 zData.length := by
  constructor
  · intro h
    have hres := ((exists_outcome_iff (by simp)).mp ⟨granted, h⟩).2
    rw [rsaParseCapi_beyond (by omega)] at hres
    obtain ⟨hn, -, hlt | ⟨-, hfits, hlt⟩⟩ := hres
    · omega
    · omega
  · intro key h
    have hres := ((exists_outcome_iff (by simp)).mp ⟨granted, h⟩).2
    obtain ⟨⟨-, hstruc, hkey, hfits⟩, -, -⟩ := rsaParseCapi_ok.mp hres
    exact ⟨by omega, hstruc, hkey, hfits⟩

theorem nMod_le_of_bitlen_lt (hkey : RsaPubKey zData z)
    (hbits : (headerAt zData z).bitlen < 2 ^ 31) : (headerAt zData z).nMod ≤ 2 ^ 27 := by
  obtain ⟨k, hk⟩ := hkey.bitlen.2
  have hbit : (headerAt zData z).bitlen = 2 ^ k := hk
  have hlt : k < 31 := (Nat.pow_lt_pow_iff_right (by decide)).mp (hbit ▸ hbits)
  have hle : 2 ^ k ≤ 2 ^ 30 := Nat.pow_le_pow_right (by decide) (by omega)
  simp only [CapiHeader.nMod, hbit]
  omega

theorem nBlob_le (h : CapiHeader) : h.nBlob ≤ 20 + h.nMod + 5 * h.nHalf + h.nMod := by
  unfold CapiHeader.nBlob
  split <;> omega

/-- A blob with such a field is read past its end, or accepted. -/
theorem SizeWraps.not_readsWithin (h : SizeWraps zData) : ¬ ReadsWithin zData := by
  intro hwithin
  have hlen := h.header.inside
  have hcb : cbPublicKey zData < 2 ^ 32 := le32At_lt zData 8
  have hlarge := h.wraps
  have hwrapped := wrappedSize_of_le h.wraps hcb
  have hsize : cbPublicKey zData ≠ 0 ∧ wrappedSize (cbPublicKey zData) ≤ zData.length := by
    omega
  have hload : rsaKeyLoad zData = Traced.request .rsaKey >>= fun _ => loadWrapped zData := by
    rw [rsaKeyLoad_eq hlen, if_pos h.header.sigAlgId]
  have hops : ∀ op, op ∈ (rsaKeyLoad zData).ops ↔ op = .rsaKey ∨ op ∈ (loadWrapped zData).ops := by
    intro op
    rw [hload, mem_bind_ops]
    simp
  have hres : (rsaKeyLoad zData).result = (loadWrapped zData).result := by
    rw [hload, bind_result]
    rfl
  have hparse : ∀ op ∈ (rsaParseCapi zData 12 (cbPublicKey zData)).ops, op.Obtainable := by
    refine rsaParseCapi_obtainable.mpr fun hvalid => ?_
    have hinside := hvalid.2.2.1.inside
    rcases h.goesOn with hshort | ⟨hkey, hbits, -⟩
    · omega
    · have hmod := nMod_le_of_bitlen_lt hkey hbits
      have hmax : mxAlloc = 2 ^ 28 := by decide
      omega
  by_cases hbeyond : (rsaParseCapi zData 12 (cbPublicKey zData)).result = .error .beyond
  · -- The parser looks past the end, before there is anything to copy for the wrapper.
    have hall : ∀ op ∈ (rsaKeyLoad zData).ops, op.Obtainable := by
      intro op hop
      rcases (hops op).mp hop with rfl | hop
      · trivial
      · rcases (mem_loadWrapped_ops hlen h.header.hashAlgId hsize).mp hop with
          hop | ⟨⟨key, hkey⟩, -⟩
        · exact hparse op hop
        · rw [hbeyond] at hkey
          cases hkey
    have hstop : (rsaKeyLoad zData).result = .error .beyond :=
      hres.trans ((loadWrapped_beyond hlen).mpr ⟨h.header.hashAlgId, hsize, hbeyond⟩)
    obtain ⟨granted, hout⟩ := (exists_outcome_iff (by simp)).mpr ⟨hall, hstop⟩
    exact (hwithin granted).1.1 hout
  · -- Otherwise the key is accepted although the declared size does not fit.
    rw [rsaParseCapi_beyond (by omega)] at hbeyond
    have hnot := fun hor => hbeyond ⟨by omega, h.struc, hor⟩
    rcases h.goesOn with hshort | ⟨hkey, hbits, hmore⟩
    · exact hnot (.inl (by omega))
    · have hmod := nMod_le_of_bitlen_lt hkey hbits
      have hhalf : (headerAt zData 12).nHalf ≤ 2 ^ 27 := by
        unfold CapiHeader.nHalf
        omega
      have hfits : (headerAt zData 12).nBlob ≤ cbPublicKey zData := by
        have := nBlob_le (headerAt zData 12)
        omega
      have hin : 12 + (headerAt zData 12).nBlob ≤ zData.length := by
        by_contra hlt
        exact hnot (.inr ⟨hkey, hfits, by omega⟩)
      have hok : (rsaParseCapi zData 12 (cbPublicKey zData)).result =
          .ok (keyAt zData 12 (headerAt zData 12)) :=
        rsaParseCapi_ok.mpr ⟨⟨by omega, h.struc, hkey, hfits⟩, hin, rfl⟩
      have hall : ∀ op ∈ (rsaKeyLoad zData).ops, op.Obtainable := by
        intro op hop
        rcases (hops op).mp hop with rfl | hop
        · trivial
        · rcases (mem_loadWrapped_ops hlen h.header.hashAlgId hsize).mp hop with hop | ⟨-, rfl⟩
          · exact hparse op hop
          · have hmax : mxAlloc = 2 ^ 28 := by decide
            exact ⟨by omega, by omega⟩
      have hloaded := hres.trans ((loadWrapped_ok hlen).mpr
        ⟨h.header.hashAlgId, hsize, _, hok, rfl⟩)
      obtain ⟨granted, hout⟩ := (exists_outcome_iff (by simp)).mpr ⟨hall, hloaded⟩
      rcases (hwithin granted).1.2 _ hout with hraw | ⟨-, hwrappedBlob⟩
      · exact dotnetHeader_first h.header.sigAlgId hraw.struc.bType
      · have hinside := hwrappedBlob.inside
        have htoo := h.tooLarge
        omega

theorem sizeWraps_of_parsed (hheader : DotnetHeader zData)
    (hsize : wrappedSize (cbPublicKey zData) ≤ zData.length)
    (htoo : zData.length < 12 + cbPublicKey zData) (hstruc : SigningStruc zData 12)
    (hgoes : zData.length < 32 ∨
      RsaPubKey zData 12 ∧ (headerAt zData 12).bitlen < 2 ^ 31 ∧
        (2 ^ 32 - 12 < cbPublicKey zData ∨ zData.length < 12 + (headerAt zData 12).nBlob)) :
    SizeWraps zData := by
  refine ⟨hheader, ?_, htoo, hstruc, hgoes⟩
  by_contra hlt
  rw [wrappedSize_of_lt (by omega)] at hsize
  omega

theorem bitlen_lt_of_obtainable (hvalid : 20 ≤ n ∧ SigningStruc zData z ∧ RsaPubKey zData z ∧
      (headerAt zData z).nBlob ≤ n)
    (hops : ∀ op ∈ (rsaParseCapi zData z n).ops, op.Obtainable) :
    (headerAt zData z).bitlen < 2 ^ 31 := by
  have hle := rsaParseCapi_obtainable.mp hops hvalid
  have hmax : mxAlloc = 2 ^ 28 := by decide
  unfold CapiHeader.nMod at hle
  omega

/-- A blob without such a field is read within its bounds, and accepted only when it is a
key blob. -/
theorem readsWithin_of_not_sizeWraps (h : ¬ SizeWraps zData) : ReadsWithin zData := by
  intro granted
  refine ⟨?_, rsaParseCapi_within granted⟩
  by_cases hlen : 20 ≤ zData.length
  case neg =>
    have hshort : (rsaKeyLoad zData).result = .error (.refused "SNK: invalid arguments") := by
      simp [rsaKeyLoad, require, hlen]
    constructor
    · intro hout
      have hres := ((exists_outcome_iff (by simp)).mp ⟨granted, hout⟩).2
      rw [hshort] at hres
      cases hres
    · intro key hout
      have hres := ((exists_outcome_iff (by simp)).mp ⟨granted, hout⟩).2
      rw [hshort] at hres
      cases hres
  by_cases hsig : le32At zData 0 = dotnetSigAlgRsa
  · have hload : rsaKeyLoad zData = Traced.request .rsaKey >>= fun _ => loadWrapped zData := by
      rw [rsaKeyLoad_eq hlen, if_pos hsig]
    have hres : (rsaKeyLoad zData).result = (loadWrapped zData).result := by
      rw [hload, bind_result]
      rfl
    have hops : ∀ op ∈ (loadWrapped zData).ops, op ∈ (rsaKeyLoad zData).ops := by
      intro op hop
      rw [hload, mem_bind_ops]
      exact .inr ⟨(), rfl, hop⟩
    constructor
    · intro hout
      obtain ⟨hall, hstop⟩ := (exists_outcome_iff (by simp)).mp ⟨granted, hout⟩
      obtain ⟨hhash, hsize, hbeyond⟩ := (loadWrapped_beyond hlen).mp (hres ▸ hstop)
      have hparse : ∀ op ∈ (rsaParseCapi zData 12 (cbPublicKey zData)).ops, op.Obtainable :=
        fun op hop => hall op (hops op ((mem_loadWrapped_ops hlen hhash hsize).mpr (.inl hop)))
      obtain ⟨hn, hstruc, hwhere⟩ := (rsaParseCapi_beyond (by omega)).mp hbeyond
      rcases hwhere with hlt | ⟨hkey, hfits, hlt⟩
      · refine h (sizeWraps_of_parsed ⟨hlen, hsig, hhash⟩ hsize.2 (by omega) hstruc (.inl ?_))
        omega
      · have hbits := bitlen_lt_of_obtainable ⟨hn, hstruc, hkey, hfits⟩ hparse
        refine h (sizeWraps_of_parsed ⟨hlen, hsig, hhash⟩ hsize.2 (by omega) hstruc (.inr ?_))
        exact ⟨hkey, hbits, .inr hlt⟩
    · intro key hout
      obtain ⟨hall, hloaded⟩ := (exists_outcome_iff (by simp)).mp ⟨granted, hout⟩
      obtain ⟨hhash, hsize, key₀, hok, -⟩ := (loadWrapped_ok hlen).mp (hres ▸ hloaded)
      have hparse : ∀ op ∈ (rsaParseCapi zData 12 (cbPublicKey zData)).ops, op.Obtainable :=
        fun op hop => hall op (hops op ((mem_loadWrapped_ops hlen hhash hsize).mpr (.inl hop)))
      have hbuffer : 0 < wrappedSize (cbPublicKey zData) :=
        (hall _ (hops _ ((mem_loadWrapped_ops hlen hhash hsize).mpr (.inr ⟨⟨key₀, hok⟩, rfl⟩)))).1
      obtain ⟨hvalid, hin, -⟩ := rsaParseCapi_ok.mp hok
      by_cases htoo : zData.length < 12 + cbPublicKey zData
      · have hbits := bitlen_lt_of_obtainable hvalid hparse
        refine absurd (sizeWraps_of_parsed ⟨hlen, hsig, hhash⟩ hsize.2 htoo hvalid.2.1
          (.inr ⟨hvalid.2.2.1, hbits, .inl ?_⟩)) h
        have hle := hsize.2
        unfold wrappedSize at hbuffer hle
        omega
      · exact .inr ⟨⟨hlen, hsig, hhash⟩, by omega, hvalid.2.1, hvalid.2.2.1, hvalid.2.2.2⟩
  · by_cases htype : zData[0]? = some capiPublicKeyBlob ∨ zData[0]? = some capiPrivateKeyBlob
    · have hres : (rsaKeyLoad zData).result = (rsaParseCapi zData 0 zData.length).result := by
        rw [rsaKeyLoad_eq hlen, if_neg hsig, if_pos htype, bind_result]
        rfl
      constructor
      · intro hout
        have hstop := ((exists_outcome_iff (by simp)).mp ⟨granted, hout⟩).2
        rw [hres, rsaParseCapi_beyond (by omega)] at hstop
        obtain ⟨-, -, hlt | ⟨-, hfits, hlt⟩⟩ := hstop
        · omega
        · omega
      · intro key hout
        have hloaded := ((exists_outcome_iff (by simp)).mp ⟨granted, hout⟩).2
        rw [hres] at hloaded
        obtain ⟨⟨-, hstruc, hkey, hfits⟩, -, -⟩ := rsaParseCapi_ok.mp hloaded
        exact .inl ⟨by omega, hstruc, hkey, hfits⟩
    · have hres : (rsaKeyLoad zData).result =
          .error (.refused "SNK: unrecognized key format") := by
        rw [rsaKeyLoad_eq hlen, if_neg hsig, if_neg htype, bind_result]
        rfl
      constructor
      · intro hout
        have hstop := ((exists_outcome_iff (by simp)).mp ⟨granted, hout⟩).2
        rw [hres] at hstop
        cases hstop
      · intro key hout
        have hloaded := ((exists_outcome_iff (by simp)).mp ⟨granted, hout⟩).2
        rw [hres] at hloaded
        cases hloaded

/-- The key functions keep to the data for every blob but those whose size field wraps. -/
theorem readsWithin_iff (zData : Bytes) : ReadsWithin zData ↔ ¬ SizeWraps zData :=
  ⟨fun h hwraps => hwraps.not_readsWithin h, readsWithin_of_not_sizeWraps⟩

/-- A header of .NET with the size field `2 ^ 32 - 4`, and the two structures of a public
key of 1024 bits, without the modulus. -/
def truncatedBlob : Bytes :=
  dotnetHeader (2 ^ 32 - 4) ++ [capiPublicKeyBlob, capiBVersion, 0, 0] ++
    storeLe 4 capiCalgRsaSign ++ storeLe 4 capiRsa1Magic ++ storeLe 4 1024 ++ storeLe 4 65537

theorem truncatedBlob_readBeyond : ¬ ReadsWithin truncatedBlob := by
  intro h
  exact (h fun _ => true).1.1 (by decide)

end Bounds

end Keys

end Th8
