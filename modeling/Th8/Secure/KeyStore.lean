import Th8.Core.Value
import Th8.Support.BytePacking
import Th8.Support.Transition

/-!
# The key store of secure variables

A secure variable is held encrypted, under a key of its own in a slot of a locked page; a
bitmap says which slots are used.  Its metadata goes by its name in a hash, and an ordinary
variable of that name holds an empty value in its place.

The cipher is a parameter.  What the platform grants to an operation (memory, random bytes,
each call of the library that has the cipher) is its answer, which comes with the operation.
The page and its slots always exist here, as an interpreter is not made without them.
-/

namespace Th8

open Support
open Function (update update_apply)

namespace Secure

/-- AES-256-GCM: the ciphertext and the tag, and the plaintext unless the tag is rejected. -/
structure Gcm where
  encrypt : (key nonce name zPlain : Bytes) → Bytes × Bytes
  decrypt : (key nonce name zCipher aTag : Bytes) → Option Bytes

/-- The steps of the library between the start and the end of an encryption or decryption. -/
inductive EvpStep where
  | new
  | cipher
  | ivLen
  | keyNonce
  | name
  | text
  | tag
  | final
deriving DecidableEq

/-- The message of `th8SecureDecrypt` for a step that fails. -/
def EvpStep.decryptMessage : EvpStep → String
  | new => "secure variable: EVP_CIPHER_CTX_new failed"
  | cipher => "secure variable: EVP_DecryptInit_ex (cipher) failed"
  | ivLen => "secure variable: EVP_CIPHER_CTX_ctrl SET_IVLEN failed"
  | keyNonce => "secure variable: EVP_DecryptInit_ex (key/nonce) failed"
  | name => "secure variable: EVP_DecryptUpdate (AAD) failed"
  | text => "secure variable: EVP_DecryptUpdate (ciphertext) failed"
  | tag => "secure variable: EVP_CIPHER_CTX_ctrl SET_TAG failed"
  | final => "secure variable: authentication failed (data may be corrupted)"

def evpFailure (fails : Option EvpStep) (zName : Bytes) : Option EvpStep :=
  if fails = some .name ∧ zName = [] then none else fails

/-- `TH8_SECURE_KEY_SIZE`. -/
def keySize : ℕ := 32

/-- `TH8_SECURE_MAX_SLOTS`. -/
def maxSlots : ℕ := 128

/-- `TH8_SECURE_MASTER_SLOT`. -/
def masterSlot : ℕ := 1

/-- `TH8_SECURE_FIRST_VAR`. -/
def firstVar : ℕ := 2

/-- `TH8_SECURE_PAD_BLOCK`. -/
def padBlock : ℕ := 64

/-- `TH8_SECURE_NONCE_SIZE`. -/
def nonceSize : ℕ := 12

def secureCanary : Bytes := [0x77, 0x73, 0x5a, 0x9f, 0x68, 0xbf, 0x3b, 0x9b]

/-! ## The state -/

/-- `Th8_SecureVarData`; no ciphertext is an empty one. -/
structure SecureVarData where
  zCipher : Bytes
  aTag : Bytes
  nNonce : ℕ
  iSlot : ℕ
deriving DecidableEq

/-- What there is of an ordinary variable: nothing, a record without a value, or a value. -/
inductive Scalar where
  | absent
  | bare
  | assigned
deriving DecidableEq

/-- The key store, the hash of the secure variables once there is one, and the variables. -/
structure State where
  page : ℕ → Bytes
  aBitmap : ℕ → Bool
  nUsed : ℤ
  paSecureVar : Option (Bytes → Option (Option SecureVarData))
  vars : Bytes → Scalar

namespace State

def entry (s : State) (zVar : Bytes) : Option (Option SecureVarData) :=
  s.paSecureVar.bind fun paSecure => paSecure zVar

def existsVar (s : State) (zVar : Bytes) : Bool := s.vars zVar = .assigned

def isSecureVar (s : State) (zVar : Bytes) : Bool := (s.entry zVar).join.isSome

def setEntry (s : State) (zVar : Bytes) (e : Option (Option SecureVarData)) : State :=
  { s with paSecureVar := s.paSecureVar.map fun paSecure => update paSecure zVar e }

def setVars (s : State) (zVar : Bytes) (v : Scalar) : State :=
  { s with vars := update s.vars zVar v }

def setKey (s : State) (i : ℕ) (key : Bytes) : State :=
  { s with page := update s.page i key }

/-- `th8SlotSetUsed` and the counter. -/
def takeSlot (s : State) (i : ℕ) : State :=
  { s with aBitmap := update s.aBitmap i true, nUsed := s.nUsed + 1 }

def freeSlot (s : State) (i : ℕ) : State :=
  { s with
    page := update s.page i (List.replicate keySize 0)
    aBitmap := update s.aBitmap i false
    nUsed := s.nUsed - 1 }

section Updates

variable (s : State) (zVar : Bytes) (i : ℕ)

@[simp] theorem entry_setVars (v : Scalar) (n : Bytes) :
    (s.setVars zVar v).entry n = s.entry n := rfl

@[simp] theorem entry_setKey (key n : Bytes) : (s.setKey i key).entry n = s.entry n := rfl

@[simp] theorem entry_takeSlot (n : Bytes) : (s.takeSlot i).entry n = s.entry n := rfl

@[simp] theorem entry_freeSlot (n : Bytes) : (s.freeSlot i).entry n = s.entry n := rfl

theorem vars_setVars (v : Scalar) (n : Bytes) :
    (s.setVars zVar v).vars n = if n = zVar then v else s.vars n :=
  update_apply _ _ _ _

theorem aBitmap_takeSlot (j : ℕ) : (s.takeSlot i).aBitmap j = if j = i then true else s.aBitmap j :=
  update_apply _ _ _ _

theorem aBitmap_freeSlot (j : ℕ) :
    (s.freeSlot i).aBitmap j = if j = i then false else s.aBitmap j :=
  update_apply _ _ _ _

theorem entry_setEntry (h : s.paSecureVar.isSome = true) (e : Option (Option SecureVarData))
    (n : Bytes) : (s.setEntry zVar e).entry n = if n = zVar then e else s.entry n := by
  obtain ⟨paSecure, hsome⟩ := Option.isSome_iff_exists.mp h
  simp only [entry, setEntry, hsome, Option.map_some, Option.bind_some, update_apply]

theorem entry_withTable (n : Bytes) :
    State.entry { s with paSecureVar := some (s.paSecureVar.getD fun _ => none) } n =
      s.entry n := by
  rcases h : s.paSecureVar with _ | paSecure
  · simp [entry, h]
  · simp [entry, h]

theorem isSome_of_join {d : SecureVarData} {s : State} {zVar : Bytes}
    (h : (s.entry zVar).join = some d) : s.paSecureVar.isSome = true := by
  rcases hs : s.paSecureVar with _ | paSecure
  · simp [entry, hs] at h
  · rfl

end Updates

end State

/-- The state that `th8SecureInit` leaves, in an interpreter with the given variables. -/
def secureInit (vars : Bytes → Scalar) : State where
  page := update (fun _ => List.replicate keySize 0) 0
    (secureCanary ++ List.replicate (keySize - secureCanary.length) 0)
  aBitmap := fun i => i = 0
  nUsed := 0
  paSecureVar := none
  vars := vars

def secureCheckCanary (page : ℕ → Bytes) : Bool :=
  (page 0).take secureCanary.length = secureCanary

def canaryMessage : String :=
  "secure variable: key page canary corrupted (possible buffer overflow)"

def secureDeriveNonce (nCounter : ℕ) : Bytes := storeLe 8 nCounter ++ List.replicate 4 0

def securePadSize (nPlain : ℕ) : ℕ :=
  let nPad := padBlock - nPlain % padBlock
  let nPad := if nPad = 0 then padBlock else nPad
  nPlain + nPad

def padText (zPlain : Bytes) : Bytes :=
  let nPad := securePadSize zPlain.length - zPlain.length
  zPlain ++ List.replicate nPad (UInt8.ofNat nPad)

/-- The end of `th8SecureDecrypt`: the plaintext without its padding.  The mask gathers the
differences to the last byte among as many bytes as it says. -/
def stripPadding (zOut : Bytes) : Bytes :=
  let outLen := zOut.length
  if 0 < outLen then
    let padVal := zOut.getD (outLen - 1) 0
    let padMask := (List.range (min padVal.toNat outLen)).foldl
      (fun padMask i => padMask ||| (zOut.getD (outLen - 1 - i) 0 ^^^ padVal)) (0 : Byte)
    let padOk := padMask = 0 ∧ 0 < padVal ∧ padVal ≤ UInt8.ofNat padBlock ∧
      padVal ≤ UInt8.ofNat outLen
    zOut.take (outLen - if padOk then padVal.toNat else 0)
  else zOut

/-- The answer to an encryption: whether its two buffers are granted, and the step that
fails. -/
structure EncryptAnswer where
  buffers : Bool
  fails : Option EvpStep
deriving DecidableEq

def EncryptAnswer.granted : EncryptAnswer := ⟨true, none⟩

/-- `th8SecureEncrypt`, with the metadata that it leaves. -/
def secureEncrypt (gcm : Gcm) (ans : EncryptAnswer) (page : ℕ → Bytes) (d : SecureVarData)
    (zName zPlain : Bytes) : Except Failure Unit × SecureVarData :=
  if !secureCheckCanary page then (.error (.static canaryMessage), d)
  else if !ans.buffers then (.error .silent, d)
  else
    let d := { d with nNonce := (d.nNonce + 1) % 2 ^ 64 }
    if (evpFailure ans.fails zName).isSome then (.error .silent, d)
    else
      let sealed := gcm.encrypt (page d.iSlot) (secureDeriveNonce d.nNonce) zName (padText zPlain)
      (.ok (), { d with zCipher := sealed.1, aTag := sealed.2 })

/-- The answer to a decryption: whether the protected region can be used, and the step that
fails. -/
structure DecryptAnswer where
  region : Bool
  fails : Option EvpStep
deriving DecidableEq

def DecryptAnswer.granted : DecryptAnswer := ⟨true, none⟩

/-- `th8SecureDecrypt` into a region with `nUsable` bytes. -/
def secureDecrypt (gcm : Gcm) (nUsable : ℕ) (fails : Option EvpStep) (page : ℕ → Bytes)
    (d : SecureVarData) (zName : Bytes) : Except Failure Bytes :=
  if !secureCheckCanary page then .error (.static canaryMessage)
  else if d.zCipher = [] then
    if nUsable < 1 then .error (.static "secure variable: protected region too small")
    else .ok []
  else if nUsable < d.zCipher.length + 1 then
    .error (.static "secure variable: ciphertext exceeds protected region capacity")
  else
    match evpFailure fails zName with
    | some step => .error (.static step.decryptMessage)
    | none =>
      match gcm.decrypt (page d.iSlot) (secureDeriveNonce d.nNonce) zName d.zCipher d.aTag with
      | none => .error (.static EvpStep.final.decryptMessage)
      | some zOut => .ok (stripPadding zOut)

/-- `th8SecureGetVar`, up to the result it returns. -/
def secureGetVar (gcm : Gcm) (nUsable : ℕ) (ans : DecryptAnswer) (s : State) (zVar : Bytes) :
    Except Failure Bytes :=
  match (s.entry zVar).join with
  | none => .error .silent
  | some d =>
    if !ans.region then .error .silent
    else secureDecrypt gcm nUsable ans.fails s.page d zVar

/-- `Th8_GetVar` of a secure variable. -/
def getVar (gcm : Gcm) (nUsable : ℕ) (ans : DecryptAnswer) (s : State) (zVar : Bytes) :
    Except Failure Bytes :=
  if s.vars zVar = .absent then .error (.message "no such variable: \"" zVar)
  else secureGetVar gcm nUsable ans s zVar

/-- The answer to a write: whether the variable is found or made and its value gets a
buffer, the bytes that are drawn for the key and whether drawing them succeeds, the
encryption, and the buffer for the empty value. -/
structure SetAnswer where
  found : Bool
  value : Bool
  aKey : Bytes
  random : Bool
  encrypt : EncryptAnswer
  sentinel : Bool
deriving DecidableEq

def SetAnswer.granted (aKey : Bytes) : SetAnswer := ⟨true, true, aKey, true, .granted, true⟩

def secureSetVar (gcm : Gcm) (ans : SetAnswer) (s : State) (zVar zNewVal : Bytes) :
    Except Failure Unit × State :=
  match (s.entry zVar).join with
  | none => (.ok (), s)
  | some d =>
    if maxSlots ≤ d.iSlot then (.error .silent, s)
    else
      let s := s.setKey d.iSlot ans.aKey
      if !ans.random then (.error .silent, s)
      else
        let r := secureEncrypt gcm ans.encrypt s.page d zVar zNewVal
        (r.1, s.setEntry zVar (some (some r.2)))

/-- `Th8_SetVar`, as far as it concerns secure variables. -/
def setVar (gcm : Gcm) (ans : SetAnswer) (s : State) (zVar zVal : Bytes) :
    Except Failure Unit × State :=
  if !ans.found then (.error .silent, s)
  else if !ans.value then (.error (.static "out of memory"), s.setVars zVar .bare)
  else
    let s := s.setVars zVar .assigned
    if s.isSecureVar zVar then
      let r := secureSetVar gcm ans s zVar zVal
      if !ans.sentinel then (.error (.static "out of memory"), r.2.setVars zVar .bare)
      else r
    else (.ok (), s)

/-- `Th8_UnsetVar`, which knows nothing of secure variables. -/
def unsetVar (s : State) (zVar : Bytes) : Except Failure Unit × State :=
  if s.vars zVar = .absent then (.error (.message "no such variable:" zVar), s)
  else (.ok (), s.setVars zVar .absent)

/-! ## Creation and deletion -/

/-- The answer to a creation: the key, the memory for the metadata, the encryption, the
ordinary variable, the hash, and an entry in it. -/
structure CreateAnswer where
  aKey : Bytes
  random : Bool
  data : Bool
  encrypt : EncryptAnswer
  setVar : SetAnswer
  hashNew : Bool
  hashEntry : Bool
deriving DecidableEq

def CreateAnswer.granted (aKey : Bytes) : CreateAnswer :=
  ⟨aKey, true, true, .granted, .granted aKey, true, true⟩

def findSlot (aBitmap : ℕ → Bool) : Option ℕ :=
  (List.range' firstVar (maxSlots - firstVar)).find? fun i => !aBitmap i

def newData (iSlot : ℕ) : SecureVarData := ⟨[], [], 0, iSlot⟩

/-- The end of `th8SecureVarCreate`: the hash, which may have to be made, and the entry.
Without memory for the entry the variable is not registered. -/
def registerVar (ans : CreateAnswer) (s : State) (zVar : Bytes) (d : SecureVarData) :
    Except Failure Unit × State :=
  if s.paSecureVar.isNone && !ans.hashNew then
    (.error (.static "out of memory"), s.freeSlot d.iSlot)
  else
    let s := { s with paSecureVar := some (s.paSecureVar.getD fun _ => none) }
    if (s.entry zVar).isSome || ans.hashEntry then
      (.ok (), s.setEntry zVar (some (some d)))
    else (.ok (), s)

/-- `th8SecureVarCreate` from the generation of the key in the free slot on. -/
def createInSlot (gcm : Gcm) (ans : CreateAnswer) (s : State) (zVar zVal : Bytes) (iSlot : ℕ) :
    Except Failure Unit × State :=
  let s := s.setKey iSlot ans.aKey
  if !ans.random then (.error (.static "secure: cannot generate key material"), s)
  else
    let s := s.takeSlot iSlot
    if !ans.data then (.error .silent, s.freeSlot iSlot)
    else
      match secureEncrypt gcm ans.encrypt s.page (newData iSlot) zVar zVal with
      | (.error e, _) => (.error e, s.freeSlot iSlot)
      | (.ok (), d) =>
        match setVar gcm ans.setVar s zVar [] with
        | (.error e, s) => (.error e, s.freeSlot iSlot)
        | (.ok (), s) => registerVar ans s zVar d

def secureVarCreate (gcm : Gcm) (ans : CreateAnswer) (s : State) (zVar zVal : Bytes) :
    Except Failure Unit × State :=
  if s.existsVar zVar then
    (.error (.message "cannot modify existing variable \"" zVar), s)
  else if chOpenParen ∈ zVar then
    (.error (.static "secure: array elements not supported"), s)
  else if (maxSlots : ℤ) - 1 ≤ s.nUsed then
    (.error (.static "secure: maximum number of secure variables reached (127)"), s)
  else
    match findSlot s.aBitmap with
    | none => (.error (.static "secure: no free key slots"), s)
    | some iSlot => createInSlot gcm ans s zVar zVal iSlot

def secureVarDelete (s : State) (zVar : Bytes) : Except Failure Unit × State :=
  match (s.entry zVar).join with
  | none => (.error (.message "variable is not secure: \"" zVar), s)
  | some d =>
    let s := if d.iSlot < maxSlots then s.freeSlot d.iSlot else s
    (.ok (), (unsetVar (s.setEntry zVar none) zVar).2)

/-- `th8SecureVarCleanup`, which keeps the entry, without its metadata.  Nothing calls it. -/
def secureVarCleanup (s : State) (zVar : Bytes) : State :=
  match (s.entry zVar).join with
  | none => s
  | some d =>
    let s := if d.iSlot < maxSlots then s.freeSlot d.iSlot else s
    s.setEntry zVar (some none)

inductive Op where
  | create (ans : CreateAnswer) (zVar zVal : Bytes)
  | set (ans : SetAnswer) (zVar zVal : Bytes)
  | delete (zVar : Bytes)
  | unset (zVar : Bytes)
deriving DecidableEq

def run (gcm : Gcm) (s : State) : Op → Except Failure Unit × State
  | .create ans zVar zVal => secureVarCreate gcm ans s zVar zVal
  | .set ans zVar zVal => setVar gcm ans s zVar zVal
  | .delete zVar => secureVarDelete s zVar
  | .unset zVar => unsetVar s zVar

def step (gcm : Gcm) (s : State) (op : Op) : State := (run gcm s op).2

end Secure

end Th8
