import Th8.Secure.Reading
import Th8.Support.Outcome

/-!
# Saving and loading secure variables

A value is saved as a blob, encrypted under the master key with the name of its variable.
The nonce and the tag stand in the header of the blob, and there a change of them is
noticed; so does the length of the value, which nothing protects.
-/

namespace Th8

open Support

namespace Secure

/-- `TH8_SECURE_BLOB_MAGIC`. -/
def blobMagic : Bytes := [0x54, 0x38, 0x53, 0x56]

/-- `TH8_SECURE_BLOB_VERSION`. -/
def blobVersion : Byte := 1

/-- `TH8_SECURE_BLOB_HEADER`. -/
def blobHeader : ℕ := 40

def secureHasMasterKey (page : ℕ → Bytes) : Bool := (page masterSlot).any (· ≠ 0)

def makeBlob (aNonce aTag : Bytes) (nPlain : ℕ) (zCipher : Bytes) : Bytes :=
  blobMagic ++ [blobVersion, 0, 0, 0] ++ aNonce ++ aTag ++ storeLe 4 nPlain ++ zCipher

section Fields

variable (zBlob : Bytes)

def blobNonce : Bytes := (zBlob.drop 8).take nonceSize

def blobTag : Bytes := (zBlob.drop 20).take 16

def blobPlainLen : ℕ := loadLe ((zBlob.drop 36).take 4)

def blobCipher : Bytes := zBlob.drop blobHeader

end Fields

def need (c : Bool) (e : Failure) : Except Failure Unit := if c then .ok () else .error e

def needSome {α : Type} (x : Option α) (e : Failure) : Except Failure α := x.elim (.error e) .ok

@[simp] theorem need_eq_ok {c : Bool} {e : Failure} {u : Unit} : need c e = .ok u ↔ c = true := by
  unfold need
  split
  · next h => simp [h]
  · next h => simp [h]

@[simp] theorem needSome_eq_ok {α : Type} {x : Option α} {e : Failure} {a : α} :
    needSome x e = .ok a ↔ x = some a := by
  cases x <;> simp [needSome]

/-- The answer to a load: whether persistence is enabled, the memory for the key of the store
and for a copy of the blob, the decryption, and the creation of the variable. -/
structure LoadAnswer where
  enabled : Bool
  kvKey : Bool
  copy : Bool
  decrypt : DecryptAnswer
  create : CreateAnswer
deriving DecidableEq

def LoadAnswer.granted (aKey : Bytes) : LoadAnswer :=
  ⟨true, true, true, .granted, .granted aKey⟩

/-- `th8SecureLoad` up to the creation of the variable: the value that it is given.  The
store has the blob `zResult` for the variable, if it has any. -/
def secureLoadValue (gcm : Gcm) (nUsable : ℕ) (ans : LoadAnswer) (page : ℕ → Bytes)
    (zVar : Bytes) (zResult : Option Bytes) : Except Failure Bytes := do
  need ans.enabled (.static "secure persistence not enabled")
  need (secureHasMasterKey page) (.static "master key not set")
  need ans.kvKey .silent
  let zBlob ← needSome zResult (.message "secure load: not found: \"" zVar)
  need (blobHeader ≤ zBlob.length) (.static "secure load: invalid blob (too short)")
  need ans.copy (.static "secure load: out of memory copying blob")
  need (zBlob.take 4 = blobMagic) (.static "secure load: invalid blob magic")
  need (zBlob.getD 4 0 = blobVersion) (.static "secure load: unsupported blob version")
  let nPlainLen := blobPlainLen zBlob
  let zCipher := blobCipher zBlob
  need (!(zCipher.length = 0 || zCipher.length < nPlainLen))
    (.static "secure load: corrupted blob")
  need ans.decrypt.region .silent
  need (zCipher.length + 1 ≤ nUsable)
    (.static "secure load: blob exceeds protected region capacity")
  need (evpFailure ans.decrypt.fails zVar).isNone .silent
  let zDecrypted ← needSome
    (gcm.decrypt (page masterSlot) (blobNonce zBlob) zVar zCipher (blobTag zBlob))
    (.static "secure load: authentication failed (wrong master key or corrupted data)")
  need (nPlainLen ≤ zDecrypted.length) (.static "secure load: plaintext length mismatch")
  return zDecrypted.take nPlainLen

structure Saved where
  zVar : Bytes
  zPlain : Bytes
  aNonce : Bytes

namespace Saved

def sealed (gcm : Gcm) (key : Bytes) (r : Saved) : Bytes × Bytes :=
  gcm.encrypt key r.aNonce r.zVar (padText r.zPlain)

def blob (gcm : Gcm) (key : Bytes) (r : Saved) : Bytes :=
  makeBlob r.aNonce (r.sealed gcm key).2 r.zPlain.length (r.sealed gcm key).1

def CarriedBy (gcm : Gcm) (key : Bytes) (r : Saved) (zBlob : Bytes) : Prop :=
  blobNonce zBlob = r.aNonce ∧ r.sealed gcm key = (blobCipher zBlob, blobTag zBlob)

end Saved

/-- What is relied on of the cipher under the master key: what was saved is decrypted, a
ciphertext is as long as its plaintext, and every change of the nonce, the name, the
ciphertext or the tag is rejected. -/
structure Authentic (gcm : Gcm) (key : Bytes) (saves : List Saved) : Prop where
  decrypts : ∀ r ∈ saves, gcm.decrypt key r.aNonce r.zVar (r.sealed gcm key).1
    (r.sealed gcm key).2 = some (padText r.zPlain)
  length : ∀ r ∈ saves, (r.sealed gcm key).1.length = (padText r.zPlain).length
  rejects : ∀ nonce name zCipher aTag z, gcm.decrypt key nonce name zCipher aTag = some z →
    ∃ r ∈ saves, r.aNonce = nonce ∧ r.zVar = name ∧ r.sealed gcm key = (zCipher, aTag)

variable {gcm : Gcm} {nUsable : ℕ} {s : State} {zVar zBlob zVal : Bytes} {saves : List Saved}
  {r : Saved} {key : Bytes} {page : ℕ → Bytes}

structure Acceptable (nUsable : ℕ) (page : ℕ → Bytes) (zBlob : Bytes) : Prop where
  masterKey : secureHasMasterKey page = true
  header : blobHeader ≤ zBlob.length
  magic : zBlob.take 4 = blobMagic
  version : zBlob.getD 4 0 = blobVersion
  plainLen : blobPlainLen zBlob ≤ (blobCipher zBlob).length
  nonempty : (blobCipher zBlob).length ≠ 0
  fits : (blobCipher zBlob).length + 1 ≤ nUsable

theorem secureLoadValue_ok {ans : LoadAnswer} {zResult : Option Bytes}
    (h : secureLoadValue gcm nUsable ans page zVar zResult = .ok zVal) :
    ∃ zBlob zDecrypted, zResult = some zBlob ∧ Acceptable nUsable page zBlob ∧
      gcm.decrypt (page masterSlot) (blobNonce zBlob) zVar (blobCipher zBlob) (blobTag zBlob) =
        some zDecrypted ∧ blobPlainLen zBlob ≤ zDecrypted.length ∧
          zVal = zDecrypted.take (blobPlainLen zBlob) := by
  simp only [secureLoadValue, bind_eq_ok, need_eq_ok, needSome_eq_ok, exists_const,
    decide_eq_true_eq, Bool.not_eq_true', Bool.or_eq_false_iff, decide_eq_false_iff_not,
    not_lt] at h
  obtain ⟨-, hmaster, -, zBlob, rfl, hheader, -, hmagic, hversion, hlen, -, hfits, -, zDecrypted,
    hdecrypt, hmatch, hret⟩ := h
  cases hret
  exact ⟨zBlob, zDecrypted, rfl, ⟨hmaster, hheader, hmagic, hversion, hlen.2, hlen.1, hfits⟩,
    hdecrypt, hmatch, rfl⟩

theorem secureLoadValue_granted {zDecrypted : Bytes} (aKey : Bytes)
    (h : Acceptable nUsable page zBlob)
    (hdecrypt : gcm.decrypt (page masterSlot) (blobNonce zBlob) zVar (blobCipher zBlob)
      (blobTag zBlob) = some zDecrypted) (hlen : blobPlainLen zBlob ≤ zDecrypted.length) :
    secureLoadValue gcm nUsable (.granted aKey) page zVar (some zBlob) =
      .ok (zDecrypted.take (blobPlainLen zBlob)) := by
  simp only [secureLoadValue, bind_eq_ok, need_eq_ok, needSome_eq_ok, exists_const,
    decide_eq_true_eq, Bool.not_eq_true', Bool.or_eq_false_iff, decide_eq_false_iff_not, not_lt]
  exact ⟨rfl, h.masterKey, rfl, zBlob, rfl, h.header, rfl, h.magic, h.version,
    ⟨h.nonempty, h.plainLen⟩, rfl, h.fits, by simp [evpFailure, LoadAnswer.granted,
      DecryptAnswer.granted], zDecrypted, hdecrypt, hlen, rfl⟩

/-! ## Loading what was saved -/

/-- Whatever is granted, the value that is loaded for the variable is that of a save of it
whose nonce, tag and ciphertext the blob has. -/
def LoadsSaved (gcm : Gcm) (nUsable : ℕ) (page : ℕ → Bytes) (saves : List Saved)
    (zVar zBlob : Bytes) : Prop :=
  ∀ ans zVal, secureLoadValue gcm nUsable ans page zVar (some zBlob) = .ok zVal →
    ∃ r ∈ saves, r.zVar = zVar ∧ r.CarriedBy gcm (page masterSlot) zBlob ∧ zVal = r.zPlain

def LengthKept (gcm : Gcm) (nUsable : ℕ) (page : ℕ → Bytes) (saves : List Saved)
    (zVar zBlob : Bytes) : Prop :=
  Acceptable nUsable page zBlob → ∀ r ∈ saves, r.zVar = zVar →
    r.CarriedBy gcm (page masterSlot) zBlob → blobPlainLen zBlob = r.zPlain.length

theorem decrypt_of_carriedBy (hauth : Authentic gcm key saves) (hr : r ∈ saves)
    (hcarried : r.CarriedBy gcm key zBlob) :
    gcm.decrypt key (blobNonce zBlob) r.zVar (blobCipher zBlob) (blobTag zBlob) =
      some (padText r.zPlain) := by
  have hdecrypt := hauth.decrypts r hr
  rwa [hcarried.2, ← hcarried.1] at hdecrypt

section

variable (hauth : Authentic gcm (page masterSlot) saves)

include hauth

theorem loadsSaved_of_lengthKept (hkept : LengthKept gcm nUsable page saves zVar zBlob) :
    LoadsSaved gcm nUsable page saves zVar zBlob := by
  intro ans zVal hload
  obtain ⟨z, zDecrypted, hz, hacc, hdecrypt, -, rfl⟩ := secureLoadValue_ok hload
  cases hz
  obtain ⟨r, hr, hnonce, rfl, hsealed⟩ := hauth.rejects _ _ _ _ _ hdecrypt
  have hcarried : r.CarriedBy gcm (page masterSlot) zBlob := ⟨hnonce.symm, hsealed⟩
  have hplain := decrypt_of_carriedBy hauth hr hcarried
  rw [hdecrypt] at hplain
  refine ⟨r, hr, rfl, hcarried, ?_⟩
  rw [Option.some.inj hplain, hkept hacc r hr rfl hcarried, padText_eq, List.take_left]

theorem lengthKept_of_loadsSaved (hloads : LoadsSaved gcm nUsable page saves zVar zBlob) :
    LengthKept gcm nUsable page saves zVar zBlob := by
  rintro hacc r hr rfl hcarried
  have hdecrypt := decrypt_of_carriedBy hauth hr hcarried
  have hlength : (padText r.zPlain).length = (blobCipher zBlob).length := by
    rw [← hauth.length r hr, hcarried.2]
  have hle : blobPlainLen zBlob ≤ (padText r.zPlain).length := hlength ▸ hacc.plainLen
  obtain ⟨r', hr', hname, hcarried', hval⟩ :=
    hloads _ _ (secureLoadValue_granted [] hacc hdecrypt hle)
  have hdecrypt' := decrypt_of_carriedBy hauth hr' hcarried'
  rw [hname, hdecrypt] at hdecrypt'
  have hplain : r.zPlain = r'.zPlain := padText_inj (Option.some.inj hdecrypt')
  have hlen := congrArg List.length hval
  rwa [List.length_take, Nat.min_eq_left hle, ← hplain] at hlen

end

/-- A blob is loaded with the value that was saved, or not at all, exactly when the length
in its header, if the blob is acceptable and carries a save, is the length that was saved. -/
theorem loadsSaved_iff_lengthKept (hauth : Authentic gcm (page masterSlot) saves) :
    LoadsSaved gcm nUsable page saves zVar zBlob ↔ LengthKept gcm nUsable page saves zVar zBlob :=
  ⟨lengthKept_of_loadsSaved hauth, loadsSaved_of_lengthKept hauth⟩

/-- A save of the variable `v` with the value `ab`. -/
def sampleSaved : Saved := ⟨ascii "v", ascii "ab", List.replicate nonceSize 5⟩

def sampleGcm : Gcm where
  encrypt _ _ _ z := (z, List.replicate 16 9)
  decrypt _ nonce name zCipher aTag :=
    if nonce = sampleSaved.aNonce ∧ name = sampleSaved.zVar ∧
        zCipher = padText sampleSaved.zPlain ∧ aTag = List.replicate 16 9 then
      some (padText sampleSaved.zPlain)
    else none

theorem sampleGcm_authentic (key : Bytes) : Authentic sampleGcm key [sampleSaved] := by
  constructor
  · intro r hr
    obtain rfl := List.mem_singleton.mp hr
    simp [sampleGcm, Saved.sealed]
  · intro r hr
    rfl
  · intro nonce name zCipher aTag z hdecrypt
    simp only [sampleGcm] at hdecrypt
    split at hdecrypt
    · next heq =>
      obtain ⟨rfl, rfl, rfl, rfl⟩ := heq
      exact ⟨sampleSaved, List.mem_singleton_self _, rfl, rfl, rfl⟩
    · cases hdecrypt

def samplePage : ℕ → Bytes := fun _ => List.replicate keySize 1

theorem loadsSaved_iff_lengthKept_sample :
    LoadsSaved sampleGcm 4088 samplePage [sampleSaved] (ascii "v")
        (sampleSaved.blob sampleGcm (samplePage masterSlot)) ↔
      LengthKept sampleGcm 4088 samplePage [sampleSaved] (ascii "v")
        (sampleSaved.blob sampleGcm (samplePage masterSlot)) :=
  loadsSaved_iff_lengthKept (sampleGcm_authentic _)

/-- With the length in its header changed to one, the blob of `ab` is loaded as `a`. -/
theorem lengthByte_changed :
    ¬ ∀ (gcm : Gcm) (nUsable : ℕ) (page : ℕ → Bytes) (saves : List Saved) (zVar zBlob : Bytes),
      Authentic gcm (page masterSlot) saves → LoadsSaved gcm nUsable page saves zVar zBlob := by
  intro h
  have hload := h sampleGcm 4088 samplePage [sampleSaved] (ascii "v")
    ((sampleSaved.blob sampleGcm (samplePage masterSlot)).set 36 1) (sampleGcm_authentic _)
    (.granted []) (ascii "a") (by decide)
  obtain ⟨r, hr, -, -, hval⟩ := hload
  obtain rfl := List.mem_singleton.mp hr
  exact absurd hval (by decide)

end Secure

end Th8
