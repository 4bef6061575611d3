import Mathlib.Logic.Function.Basic
import Th8.Policy.Signature

/-!
# Verification and sessions
-/

namespace Th8.Policy

/-!
## Verification of signed data

`th8PolicyVerifyData` decides whether data that was read from an origin may be
evaluated.  It needs the public key that the signature names.  A key that is not
cached is read from the registry, and that read is itself subject to verification.

What the platform serves and the RSA primitives are parameters.  Allocations may
fail at any point; which of them do is a parameter too.
-/

section Verify

/-- What verification takes from the platform, the configuration and the RSA
primitives.  `rsaKeyTokenHex` is the 16 character token of a key.  `httpsTimeQuery` is
the response of the time server, as the time it proves; a response carries no
annotations. -/
structure Env (Key : Type) where
  xGetData : Bytes → Option Bytes
  rsaKeyLoad : Bytes → Option Key
  rsaKeyTokenHex : Key → Bytes
  rsaKeyBitLen : Key → ℕ
  rsaVerify : Key → Bytes → Bytes → Bool
  attrFlagsParse : Bytes → Bool
  isSignedOnlyEnabled : Bool
  forceHttpsTime : Bool
  httpsTimeQuery : Option (Option ℤ)
  ntpQuery : Option ℤ
  getTimeMs : Option ℤ

/-- The elements of the `::th8_security` array. -/
inductive SecElem where
  | algorithmName
  | dataName
  | flags
  | notAfter
  | notBefore
  | policy
  | publicKeyToken
deriving DecidableEq

inductive FaultPoint where
  | annotate (e : SecElem)
  | sigPath
  | readSig
  | loadSig
  | copyToken
  | fetchKey
  | loadKey
  | tokenHex
  | newHash
  | hashEntry
  | rsaVerify
  | reset (e : SecElem)
  | populate (e : SecElem)
  | reapply (e : SecElem)
deriving DecidableEq

/-- What goes wrong during one verification: the allocations that fail, and the
outcome of each call of `Th8_RandomBytes`. -/
structure Faults where
  fails : FaultPoint → Bool
  randomBytes : ℕ → Option UInt64

def Faults.none : Faults := ⟨fun _ => false, fun _ => some 2⟩

def Faults.attempt {α : Type} (f : Faults) (point : FaultPoint) (x : Option α) : Option α :=
  if f.fails point then Option.none else x

abbrev Security := SecElem → Option Bytes

/-- `Th8_PolicyCtx` and the `::th8_security` array.  An element of the array is `none`
where the array has no such element. -/
structure PolicyState (Key : Type) where
  paKeys : Option (Bytes → Option Key)
  nVerifyToken : UInt64
  nVerifyOk : UInt64
  security : Security

variable {Key : Type}

namespace PolicyState

/-- The state `Th8_InstallSignedPolicy` sets up, in an interpreter whose array is as the
language registers it. -/
def init : PolicyState Key where
  paKeys := none
  nVerifyToken := 0
  nVerifyOk := 0
  security := fun _ => some (ascii "none")

/-- `th8PolicyClearVerified`. -/
def clearVerified (s : PolicyState Key) : PolicyState Key :=
  { s with nVerifyToken := 0, nVerifyOk := 0 }

/-- `th8PolicyIsVerified`. -/
def isVerified (s : PolicyState Key) : Bool :=
  s.nVerifyOk != 0 && s.nVerifyOk == s.nVerifyToken

end PolicyState

def findKey (paKeys : Option (Bytes → Option Key)) (zToken : Bytes) : Option Key :=
  paKeys.bind fun keys => keys zToken

/-- The loop of `th8PolicySetVerified`, at try `i` with `n` tries left.  A call that
fails leaves the token of the try before. -/
def drawToken (randomBytes : ℕ → Option UInt64) : ℕ → ℕ → UInt64 → Option UInt64
  | 0, _, _ => none
  | n + 1, i, tok =>
    let tok := (randomBytes i).getD tok
    if tok = 0 ∨ tok = ~~~0 ∨ tok = 1 then drawToken randomBytes n (i + 1) tok
    else some tok

/-- `th8PolicySetVerified`. -/
def setVerified (f : Faults) (s : PolicyState Key) : PolicyState Key × Except ErrorText Unit :=
  match drawToken f.randomBytes 100 0 0 with
  | some tok => ({ s with nVerifyToken := tok, nVerifyOk := tok }, .ok ())
  | none => (s, failText "unable to generate random policy token")

/-- `Th8_SetVar` on an element of the array.  When the new value cannot be allocated,
the old one is already gone. -/
def setElem (f : Faults) (point : FaultPoint) (e : SecElem) (value : Bytes)
    (sec : Security) : Security :=
  Function.update sec e (if f.fails point then none else some value)

/-! ### Annotations -/

def writeAnnotations (f : Faults) (point : SecElem → FaultPoint) (ann : Annotations)
    (sec : Security) : Security :=
  let write (e : SecElem) (value : Option Bytes) (sec : Security) : Security :=
    match value with
    | some value => setElem f (point e) e value sec
    | none => sec
  write .flags ann.flags
    (write .notAfter (ann.notAfter.map Timestamp.text)
      (write .notBefore (ann.notBefore.map Timestamp.text) sec))

def currentTime (env : Env Key) : Except ErrorText ℤ :=
  if env.forceHttpsTime then
    match env.httpsTimeQuery.join with
    | some nowSec => .ok nowSec
    | none => failText "annotation: cannot determine current time via HTTPS"
  else
    match env.ntpQuery with
    | some nowSec => .ok nowSec
    | none =>
      match env.getTimeMs with
      | some nowMs => .ok (nowMs.tdiv 1000)
      | none => failText "annotation: cannot determine current time"

def Annotations.isTimed (ann : Annotations) : Bool :=
  ann.notBefore.isSome || ann.notAfter.isSome

/-- The response of the time server is read with signed-only off, and the policy
callback clears the flag at that read. -/
def readsServerTime (env : Env Key) (ann : Annotations) : Bool :=
  ann.isTimed && env.forceHttpsTime && env.httpsTimeQuery.isSome

def checkTime (env : Env Key) (ann : Annotations) : Except ErrorText Unit :=
  if ann.isTimed = false then .ok ()
  else do
    let nowSec ← currentTime env
    if ann.notBefore.any fun t => nowSec < t.epoch then
      failText "annotation: script is not yet valid (current time is before notBefore)"
    else if ann.notAfter.any fun t => t.epoch < nowSec then
      failText "annotation: script has expired (current time is after notAfter)"
    else if ann.notBefore.any fun t => ann.notAfter.any fun u => u.epoch < t.epoch then
      failText "annotation: script has bad time range"
    else .ok ()

/-- `th8PolicyCheckAnnotations`. -/
def checkAnnotations (env : Env Key) (f : Faults) (s : PolicyState Key)
    (ann : Annotations) : PolicyState Key × Except ErrorText Unit :=
  let s := { s with security := writeAnnotations f .annotate ann s.security }
  (if readsServerTime env ann then s.clearVerified else s, checkTime env ann)

def annotationStep (env : Env Key) (f : Faults) (s : PolicyState Key) (zData : Bytes) :
    PolicyState Key × Except ErrorText Annotations :=
  match scanAnnotations env.attrFlagsParse zData with
  | .error e => (s, .error e)
  | .ok ann =>
    ((checkAnnotations env f s ann).1, (checkAnnotations env f s ann).2.map fun _ => ann)

/-- `Th8_ErrorMessage` with a prefix that ends in a quote. -/
def errorMessage (zPre : String) (z : Bytes) : ErrorText :=
  some (ascii zPre ++ z ++ ascii "\"")

/-- `th8PolicyIsRelativePath`. -/
def isRelativePath (z : Bytes) : Bool :=
  match z with
  | [] => false
  | c :: _ => c != 0x2f && c != chBackslash

/-- `th8PolicyIsHttpUri`. -/
def isHttpUri (z : Bytes) : Bool :=
  (ascii "http://").isPrefixOf z || (ascii "https://").isPrefixOf z

def checkOrigin (zName : Bytes) : Except ErrorText Unit :=
  if zName = [] then failText "signed-only: script has no origin name"
  else if !isRelativePath zName && !isHttpUri zName then
    failText "signed-only: origin must be a relative path or HTTP(S) URI"
  else .ok ()

structure Credentials where
  ann : Annotations
  sig : Bytes
  zToken : Bytes
deriving DecidableEq

/-- Steps 4 and 5.  The policy callback is off while the signature file is read. -/
def readSigner (env : Env Key) (f : Faults) (zName : Bytes) (ann : Annotations) :
    Except ErrorText Credentials :=
  let zSigPath := zName ++ ascii ".b64sig"
  if f.fails .sigPath then .error none
  else
    match f.attempt .readSig (env.xGetData zSigPath) with
    | none => .error (errorMessage "signed-only: cannot read signature file \"" zSigPath)
    | some zSigData =>
      match f.attempt .loadSig (harpySigLoad zSigData) with
      | none => .error (errorMessage "signed-only: invalid signature file for \"" zName)
      | some ⟨sig, zId⟩ =>
        match f.attempt .copyToken zId with
        | none =>
          .error (errorMessage
            "signed-only: missing public key token in signature header for \"" zName)
        | some zToken =>
          if zToken.length = 16 then .ok ⟨ann, sig, zToken⟩
          else
            .error (errorMessage
              "signed-only: missing public key token in signature header for \"" zName)

def identify (env : Env Key) (f : Faults) (zName : Bytes) (ann : Annotations) :
    Except ErrorText Credentials := do
  checkOrigin zName
  readSigner env f zName ann

/-- The policy callback at the start of a read.  `none` means that it does not
return within the fuel it is given. -/
abbrev ReadPre (Key : Type) :=
  PolicyState Key → Bytes → Bytes → Option (PolicyState Key × Except ErrorText Unit)

/-- `Th8_GetData` without translation of line endings. -/
def getData (xGetData : Bytes → Option Bytes) (xPolicyCb : ReadPre Key)
    (s : PolicyState Key) (zName : Bytes) :
    Option (PolicyState Key × Except ErrorText Bytes) :=
  match xGetData zName with
  | none => some (s, .error (errorMessage "couldn't retrieve \"" zName))
  | some zData =>
    (xPolicyCb s zName zData).map fun (s, rc) => (s, rc.map fun _ => zData)

def keyUrl (zToken : Bytes) : Bytes := ascii "https://w.sb/r/pk_" ++ zToken

def servedKey (env : Env Key) (f : Faults) (zName : Bytes) : Option Bytes :=
  f.attempt .fetchKey (env.xGetData zName)

/-- `Th8_RsaKeyLoad` and `th8PolicyVerifyToken` on what the registry served. -/
def loadKey (env : Env Key) (f : Faults) (zToken zData : Bytes) : Except ErrorText Key :=
  match f.attempt .loadKey (env.rsaKeyLoad zData) with
  | none => failText "signed-only: invalid public key blob from registry"
  | some pKey =>
    if f.fails .tokenHex then .error none
    else if env.rsaKeyTokenHex pKey = zToken then .ok pKey
    else failText "signed-only: public key token mismatch"

/-- `th8PolicyFetchKey`, with the check of the key's token. -/
def fetchKey (env : Env Key) (f : Faults) (xPolicyCb : ReadPre Key)
    (s : PolicyState Key) (zToken : Bytes) :
    Option (PolicyState Key × Except ErrorText Key) :=
  (getData (servedKey env f) xPolicyCb s (keyUrl zToken)).map fun
    | (s, .error _) =>
      (s, .error (errorMessage "signed-only: cannot fetch public key from \"" (keyUrl zToken)))
    | (s, .ok zData) => (s, loadKey env f zToken zData)

def cacheKey (f : Faults) (s : PolicyState Key) (zToken : Bytes) (pKey : Key) :
    PolicyState Key × Except ErrorText Key :=
  match if f.fails .newHash then s.paKeys else some (s.paKeys.getD fun _ => none) with
  | none => (s, .error none)
  | some paKeys =>
    if f.fails .hashEntry then ({ s with paKeys := some paKeys }, .ok pKey)
    else ({ s with paKeys := some (Function.update paKeys zToken (some pKey)) }, .ok pKey)

def obtainKey (env : Env Key) (f : Faults) (xPolicyCb : ReadPre Key)
    (s : PolicyState Key) (zToken : Bytes) :
    Option (PolicyState Key × Except ErrorText Key) :=
  match findKey s.paKeys zToken with
  | some pKey => some (s, .ok pKey)
  | none =>
    (fetchKey env f xPolicyCb s zToken).map fun
      | (s, .error e) => (s, .error e)
      | (s, .ok pKey) => cacheKey f s zToken pKey

/-- `Th8_ResetSecurityArray`: stops at the first element that cannot be set. -/
def resetElems (f : Faults) : List SecElem → Security → Security × Bool
  | [], sec => (sec, true)
  | e :: es, sec =>
    if f.fails (.reset e) then (Function.update sec e none, false)
    else resetElems f es (Function.update sec e (some (ascii "none")))

def securityElems : List SecElem :=
  [.algorithmName, .dataName, .flags, .notAfter, .notBefore, .policy, .publicKeyToken]

def resetSecurity (f : Faults) (sec : Security) : Security × Bool :=
  resetElems f securityElems sec

/-- The text `RSA-` and the last five digits of the bit length. -/
def algorithmName (nBits : ℕ) : Bytes :=
  let digit (d : ℕ) : Byte := (0x30 + nBits / d % 10).toUInt8
  ascii "RSA-" ++ (([10000, 1000, 100, 10].filter fun d => d ≤ nBits).map digit) ++ [digit 1]

/-- `th8PolicyPopulateSecurity`. -/
def populateSecurity (env : Env Key) (f : Faults) (pKey : Key) (zToken zName : Bytes)
    (sec : Security) : Security :=
  let set (e : SecElem) (value : Bytes) := setElem f (.populate e) e value
  set .dataName zName (set .publicKeyToken zToken
    (set .policy (ascii "signedOnly")
      (set .algorithmName (algorithmName (env.rsaKeyBitLen pKey)) sec)))

def recordSuccess (env : Env Key) (f : Faults) (s : PolicyState Key) (zName : Bytes)
    (c : Credentials) (pKey : Key) : PolicyState Key × Except ErrorText Unit :=
  match resetSecurity f s.security with
  | (sec, false) =>
    ({ s with security := sec }, failText "signed-only: unable to reset security state")
  | (sec, true) =>
    setVerified f { s with
      security := writeAnnotations f .reapply c.ann
        (populateSecurity env f pKey c.zToken zName sec) }

def signatureHolds (env : Env Key) (f : Faults) (zData : Bytes) (c : Credentials)
    (pKey : Key) : Bool :=
  !f.fails .rsaVerify && env.rsaVerify pKey zData c.sig

def conclude (env : Env Key) (f : Faults) (s : PolicyState Key) (zName zData : Bytes)
    (c : Credentials) (pKey : Key) : PolicyState Key × Except ErrorText Unit :=
  if signatureHolds env f zData c pKey then recordSuccess env f s zName c pKey
  else
    (s, .error (errorMessage "signed-only: script signature verification failed for \"" zName))

def verifySigned (env : Env Key) (f : Faults) (xPolicyCb : ReadPre Key)
    (s : PolicyState Key) (zName zData : Bytes) (c : Credentials) :
    Option (PolicyState Key × Except ErrorText Unit) :=
  (obtainKey env f xPolicyCb s c.zToken).map fun
    | (s, .error e) => (s, .error e)
    | (s, .ok pKey) => conclude env f s zName zData c pKey

/-- `th8PolicyVerifyData`.  The verification of a key that is being fetched runs one
level deeper; the result is `none` when the fuel does not suffice. -/
def verifyData (env : Env Key) (faults : ℕ → Faults) : ℕ → ℕ → ReadPre Key
  | 0, _, _, _, _ => none
  | fuel + 1, level, s, zName, zData =>
    let f := faults level
    match annotationStep env f s.clearVerified zData with
    | (s, annOk) =>
      if env.isSignedOnlyEnabled = false then some (s, .ok ())
      else
        match annOk.bind (identify env f zName) with
        | .error e => some (s, .error e)
        | .ok c =>
          verifySigned env f (verifyData env faults fuel (level + 1)) s zName zData c

end Verify

/-!
## Reads and evaluations under the policy

The policy callback verifies data when it is read and decides, when an evaluation
starts, whether it may.  The two are connected only by the verification flag: a read
sets it, the start of an evaluation consults it, and the end of an evaluation at the
top level clears it.

A session is the part of the interpreter that this involves: the policy context, the
evaluation depth and the evaluations under way.  Its operations are the calls of the
host and of the commands that a script runs, in any order.
-/

section Session

variable {Key : Type}

/-- The surroundings of one call into the policy: what is served, what fails before and
during verification, and how deep verification may go before the call counts as not
returning. -/
structure Call (Key : Type) where
  env : Env Key
  pre : Faults
  faults : ℕ → Faults
  fuel : ℕ

inductive Gate where
  | unrestricted
  | verified
  | nested
  | trusted
  | inline
deriving DecidableEq

def evalAnnotations (k : Call Key) (nEvalDepth : ℕ) (s : PolicyState Key)
    (zScript : Bytes) : PolicyState Key × Except ErrorText Annotations :=
  if nEvalDepth ≤ 1 then annotationStep k.env k.pre s zScript
  else (s, .ok Annotations.empty)

/-- `th8PolicyEvalPre`.  A script without an origin has the empty name. -/
def evalPre (k : Call Key) (nEvalDepth : ℕ) (s : PolicyState Key)
    (zName zScript : Bytes) (trusted : Bool) :
    Option (PolicyState Key × Except ErrorText Gate) :=
  match evalAnnotations k nEvalDepth s zScript with
  | (s, annOk) =>
    if k.env.isSignedOnlyEnabled = false then some (s, .ok .unrestricted)
    else
      match annOk with
      | .error e => some (s, .error e)
      | .ok _ =>
        if s.isVerified then some (s, .ok .verified)
        else if 1 < nEvalDepth then some (s, .ok .nested)
        else if zName = [] then
          if trusted then some (s, .ok .trusted)
          else some (s, failText "signed-only: script has no origin name")
        else
          (verifyData k.env k.faults k.fuel 0 s zName zScript).map fun (s, rc) =>
            (s, rc.map fun _ => .inline)

/-- The end of an evaluation in `th8PolicyCallback`. -/
def evalPost (nEvalDepth : ℕ) (s : PolicyState Key) : PolicyState Key :=
  if nEvalDepth ≤ 1 then s.clearVerified else s

/-! ### Sessions -/

/-- An evaluation under way.  One that `th8EvalCommon` drives remembers the depth it
was called at. -/
structure EvalFrame where
  sync : Bool
  nSavedDepth : ℕ
deriving DecidableEq

/-- The start of a script, with the bytes that verification accepted for this very
evaluation. -/
structure Start where
  zScript : Bytes
  nEvalDepth : ℕ
  trusted : Bool
  gate : Gate
  own : Option Bytes
deriving DecidableEq

/-- The evaluations under way have the innermost one first.  `starts` is read by no
operation. -/
structure Session (Key : Type) where
  policy : PolicyState Key
  nEvalDepth : ℕ
  evals : List EvalFrame
  starts : List Start

def Session.fresh (paKeys : Option (Bytes → Option Key)) : Session Key where
  policy := { (PolicyState.init : PolicyState Key) with paKeys := paKeys }
  nEvalDepth := 0
  evals := []
  starts := []

/-- What goes wrong in `th8EvalLocal`: a check before the policy callback refuses, or
one of its three allocations fails. -/
inductive StartFault where
  | none
  | notReady
  | noState
  | noCleanup
  | noIteration
deriving DecidableEq

/-- `th8EvalLocal`, where `own` is what was verified for this evaluation before.  The
result is `none` when the policy callback does not return. -/
def evalLocal (k : Call Key) (m : Session Key) (sync : Bool) (zName zScript : Bytes)
    (trusted : Bool) (own : Option Bytes) (fault : StartFault) : Option (Session Key) :=
  if fault = .notReady ∨ 1000 < m.nEvalDepth then some m
  else
    (evalPre k (m.nEvalDepth + 1) m.policy zName zScript trusted).map fun
      | (s, .error _) => { m with policy := s }
      | (s, .ok gate) =>
        match fault with
        | .noState => { m with policy := s, nEvalDepth := m.nEvalDepth + 1 }
        | .noCleanup => { m with policy := s }
        -- the clean-up callback is already scheduled and runs
        | .noIteration => { m with policy := evalPost (m.nEvalDepth + 1) s }
        | .none | .notReady =>
          { policy := s
            nEvalDepth := m.nEvalDepth + 1
            evals := ⟨sync, m.nEvalDepth⟩ :: m.evals
            starts :=
              ⟨zScript, m.nEvalDepth + 1, trusted, gate,
                if gate = .inline then some zScript else own⟩ :: m.starts }

def translateCrLfToLf : Bytes → Bytes
  | 0x0d :: 0x0a :: rest => chNewline :: translateCrLfToLf rest
  | c :: rest => c :: translateCrLfToLf rest
  | [] => []

/-- `Th8_GetData` under the policy. -/
def readData (k : Call Key) (m : Session Key) (zName : Bytes) :
    Option (PolicyState Key × Except ErrorText Bytes) :=
  getData k.env.xGetData (verifyData k.env k.faults k.fuel 0) m.policy zName

/-- `Th8_EvalFile`: the read and the evaluation each have their surroundings.  The
`::th8_security` array, which no decision reads, is not restored. -/
def evalFile (kRead kEval : Call Key) (m : Session Key) (zName : Bytes)
    (fault : StartFault) : Option (Session Key) :=
  (readData kRead m zName).bind fun
    | (s, .error _) => some { m with policy := s }
    | (s, .ok zData) =>
      evalLocal kEval { m with policy := s } true zName (translateCrLfToLf zData) false
        (if kRead.env.isSignedOnlyEnabled then some zData else none) fault

/-- The innermost evaluation ends.  A pending cancellation makes `th8EvalCommon` restore
the depth. -/
def finishEval (m : Session Key) (cancelled : Bool) : Session Key :=
  match m.evals with
  | [] => m
  | fr :: evals =>
    { m with
      policy := evalPost m.nEvalDepth m.policy
      nEvalDepth :=
        if fr.sync && cancelled then fr.nSavedDepth else m.nEvalDepth - 1
      evals := evals }

/-- A cancellation with unwind discards the callbacks of the innermost trampoline, the
clean-up of its evaluations among them. -/
def unwindEvals (m : Session Key) : Session Key :=
  match m.evals.dropWhile fun fr => !fr.sync with
  | [] => m
  | fr :: evals => { m with nEvalDepth := fr.nSavedDepth, evals := evals }

inductive HostOp (Key : Type) where
  | getData (k : Call Key) (zName : Bytes)
  | eval (k : Call Key) (sync : Bool) (zName zScript : Bytes) (trusted : Bool) (fault : StartFault)
  | evalFile (kRead kEval : Call Key) (zName : Bytes) (fault : StartFault)
  | finish (cancelled : Bool)
  | unwind

def Session.step (m : Session Key) : HostOp Key → Session Key
  | .getData k zName =>
    ((readData k m zName).map fun out => { m with policy := out.1 }).getD m
  | .eval k sync zName zScript trusted fault =>
    (evalLocal k m sync zName zScript trusted none fault).getD m
  | .evalFile kRead kEval zName fault => (evalFile kRead kEval m zName fault).getD m
  | .finish cancelled => finishEval m cancelled
  | .unwind => unwindEvals m

def HostOp.isSignedOnly : HostOp Key → Prop
  | .getData k _ => k.env.isSignedOnlyEnabled = true
  | .eval k .. => k.env.isSignedOnlyEnabled = true
  | .evalFile kRead kEval _ _ =>
    kRead.env.isSignedOnlyEnabled = true ∧ kEval.env.isSignedOnlyEnabled = true
  | .finish _ | .unwind => True

end Session

end Th8.Policy
