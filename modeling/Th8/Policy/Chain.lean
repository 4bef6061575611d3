import Mathlib.Data.FinEnum
import Mathlib.Data.Set.Finite.List
import Th8.Policy.Session
import Th8.Support.Outcome
import Th8.Support.Walk

/-!
# Chains of certificates
-/

namespace Th8.Policy

open Support Option

/-!
## The chain of nested verifications

The checks of steps 2 to 5 read the data and what the platform serves, not the state.
So the origins that a verification visits, one a level, are determined beforehand:
data whose signature names a key that is not cached leads to what the registry serves
for that key.
-/

section Chain

variable {Key : Type} (env : Env Key) (f : Faults)

def checkedAnnotations (zData : Bytes) : Except ErrorText Annotations :=
  (scanAnnotations env.attrFlagsParse zData).bind fun ann =>
    (checkTime env ann).map fun _ => ann

def credentials (zName zData : Bytes) : Except ErrorText Credentials :=
  (checkedAnnotations env zData).bind (identify env f zName)

def annotated (zData : Bytes) (sec : Security) : Security :=
  match scanAnnotations env.attrFlagsParse zData with
  | .error _ => sec
  | .ok ann => writeAnnotations f .annotate ann sec

def openState (s : PolicyState Key) (zData : Bytes) : PolicyState Key :=
  { s.clearVerified with security := annotated env f zData s.security }

def clearsByTime (zData : Bytes) : Bool :=
  match scanAnnotations env.attrFlagsParse zData with
  | .error _ => false
  | .ok ann => readsServerTime env ann

theorem annotationStep_snd (s : PolicyState Key) (zData : Bytes) :
    (annotationStep env f s zData).2 = checkedAnnotations env zData := by
  unfold annotationStep checkedAnnotations
  cases scanAnnotations env.attrFlagsParse zData with
  | error e => rfl
  | ok ann => rfl

@[simp] theorem annotationStep_paKeys (s : PolicyState Key) (zData : Bytes) :
    (annotationStep env f s zData).1.paKeys = s.paKeys := by
  unfold annotationStep
  cases scanAnnotations env.attrFlagsParse zData with
  | error e => rfl
  | ok ann =>
    simp only [checkAnnotations]
    split_ifs <;> rfl

theorem annotationStep_isVerified (s : PolicyState Key) (zData : Bytes) :
    (annotationStep env f s zData).1.isVerified = (s.isVerified && !clearsByTime env zData) := by
  unfold annotationStep clearsByTime
  cases scanAnnotations env.attrFlagsParse zData with
  | error e => simp
  | ok ann =>
    simp only [checkAnnotations]
    cases readsServerTime env ann with
    | true => simp [PolicyState.isVerified, PolicyState.clearVerified]
    | false => simp [PolicyState.isVerified]

theorem annotationStep_clearVerified (s : PolicyState Key) (zData : Bytes) :
    (annotationStep env f s.clearVerified zData).1 = openState env f s zData := by
  unfold annotationStep openState annotated
  cases scanAnnotations env.attrFlagsParse zData with
  | error e => rfl
  | ok ann =>
    simp only [checkAnnotations]
    split_ifs <;> rfl

@[simp] theorem openState_paKeys (s : PolicyState Key) (zData : Bytes) :
    (openState env f s zData).paKeys = s.paKeys := rfl

@[simp] theorem openState_security (s : PolicyState Key) (zData : Bytes) :
    (openState env f s zData).security = annotated env f zData s.security := rfl

@[simp] theorem openState_isVerified (s : PolicyState Key) (zData : Bytes) :
    (openState env f s zData).isVerified = false := rfl

variable (faults : ℕ → Faults)

theorem verifyData_succ (fuel level : ℕ) (s : PolicyState Key) (zName zData : Bytes) :
    verifyData env faults (fuel + 1) level s zName zData =
      if env.isSignedOnlyEnabled = false then
        some (openState env (faults level) s zData, .ok ())
      else
        match credentials env (faults level) zName zData with
        | .error e => some (openState env (faults level) s zData, .error e)
        | .ok c =>
          verifySigned env (faults level) (verifyData env faults fuel (level + 1))
            (openState env (faults level) s zData) zName zData c := by
  rw [verifyData]
  simp only [annotationStep_snd, annotationStep_clearVerified]
  rfl

/-! ### The origins visited -/

def missingToken (paKeys : Option (Bytes → Option Key)) (zName zData : Bytes) : Option Bytes :=
  if env.isSignedOnlyEnabled then
    match credentials env f zName zData with
    | .error _ => none
    | .ok c => if (findKey paKeys c.zToken).isNone then some c.zToken else none
  else none

def nextVisit (paKeys : Option (Bytes → Option Key)) (v : Bytes × Bytes) : Option (Bytes × Bytes) :=
  (missingToken env f paKeys v.1 v.2).bind fun zToken =>
    (servedKey env f (keyUrl zToken)).map fun zData => (keyUrl zToken, zData)

/-- The origin and the data visited `n` levels below `level`. -/
def visit (paKeys : Option (Bytes → Option Key)) (level n : ℕ) (v : Bytes × Bytes) :
    Option (Bytes × Bytes) :=
  walk (fun level => nextVisit env (faults level) paKeys) level n v

theorem verifyData_succ_isSome (fuel level : ℕ) (s : PolicyState Key) (zName zData : Bytes) :
    (verifyData env faults (fuel + 1) level s zName zData).isSome =
      match nextVisit env (faults level) s.paKeys (zName, zData) with
      | none => true
      | some v =>
        (verifyData env faults fuel (level + 1) (openState env (faults level) s zData)
          v.1 v.2).isSome := by
  rw [verifyData_succ]
  cases hsigned : env.isSignedOnlyEnabled with
  | false => simp [nextVisit, missingToken, hsigned]
  | true =>
    simp only [nextVisit, missingToken, hsigned, Bool.true_eq_false, if_false, if_true]
    cases credentials env (faults level) zName zData with
    | error e => rfl
    | ok c =>
      simp only [verifySigned, obtainKey, openState_paKeys, isSome_map]
      cases hkey : findKey s.paKeys c.zToken with
      | some pKey => simp
      | none =>
        simp only [isSome_map, fetchKey, getData, isNone_none, if_true, bind_some]
        cases servedKey env (faults level) (keyUrl c.zToken) with
        | none => simp
        | some zKey => simp

theorem verifyData_isSome_iff (fuel level : ℕ) (s : PolicyState Key) (zName zData : Bytes) :
    (verifyData env faults fuel level s zName zData).isSome ↔
      visit env faults s.paKeys level fuel (zName, zData) = none := by
  induction fuel generalizing level s zName zData with
  | zero => simp [verifyData, visit]
  | succ fuel ih =>
    rw [verifyData_succ_isSome, visit, walk_succ]
    cases nextVisit env (faults level) s.paKeys (zName, zData) with
    | none => simp
    | some v => exact ih (level + 1) (openState env (faults level) s zData) v.1 v.2

end Chain

/-!
## Termination of verification

A key that is not cached is verified like any other data, and its own signature may
name a further key.  Nothing bounds this chain, and nothing notices that it comes back
to a key whose verification is under way: keys enter the cache on the way up.
-/

section Termination

variable {Key : Type} (env : Env Key)

theorem identify_token_length {f : Faults} {zName : Bytes} {ann : Annotations}
    {c : Credentials} (h : identify env f zName ann = .ok c) : c.zToken.length = 16 := by
  obtain ⟨-, -, hread⟩ := bind_eq_ok.mp h
  unfold readSigner at hread
  dsimp only at hread
  split_ifs at hread
  split at hread
  · cases hread
  split at hread
  · cases hread
  split at hread
  · cases hread
  split_ifs at hread with hlength
  cases hread
  exact hlength

theorem missingToken_length {f : Faults} {paKeys : Option (Bytes → Option Key)}
    {zName zData zToken : Bytes}
    (h : missingToken env f paKeys zName zData = some zToken) : zToken.length = 16 := by
  unfold missingToken at h
  split_ifs at h
  cases hc : credentials env f zName zData with
  | error e => simp [hc] at h
  | ok c =>
    obtain ⟨ann, -, hidentify⟩ := bind_eq_ok.mp hc
    simp only [hc, ite_none_right_eq_some, some.injEq] at h
    exact h.2 ▸ identify_token_length env hidentify

theorem visit_finite (f : Faults) (paKeys : Option (Bytes → Option Key)) (v : Bytes × Bytes) :
    {w | ∃ n, visit env (fun _ => f) paKeys 0 (n + 1) v = some w}.Finite := by
  let served (zToken : Bytes) : Bytes × Bytes :=
    (keyUrl zToken, (servedKey env f (keyUrl zToken)).getD [])
  refine ((List.finite_length_eq UInt8 16).image served).subset ?_
  rintro w ⟨n, hw⟩
  rw [visit, walk_succ_right] at hw
  obtain ⟨u, -, hnext⟩ := bind_eq_some_iff.mp hw
  obtain ⟨zToken, htoken, hserved⟩ := bind_eq_some_iff.mp hnext
  obtain ⟨zData, hdata, rfl⟩ := map_eq_some_iff.mp hserved
  exact ⟨zToken, missingToken_length env htoken, by simp [served, hdata]⟩

/-- Verification returns exactly when its chain never comes back to data it has
visited. -/
theorem verifyData_returns_iff (s : PolicyState Key) (zName zData : Bytes) :
    (∃ fuel, (verifyData env (fun _ => Faults.none) fuel 0 s zName zData).isSome) ↔
      ∀ i j v, visit env (fun _ => Faults.none) s.paKeys 0 i (zName, zData) = some v →
        visit env (fun _ => Faults.none) s.paKeys 0 j (zName, zData) = some v → i = j := by
  simp only [verifyData_isSome_iff]
  exact walk_stops_iff (visit_finite env Faults.none s.paKeys (zName, zData))

/-- A registry whose only key is signed with itself, and a script signed with it. -/
def selfSigned : Env Unit where
  xGetData := fun zName =>
    if zName = ascii "demo.th8" then some (ascii "puts demo")
    else if zName = keyUrl (ascii "0123456789abcdef") then some (ascii "key")
    else if zName = ascii "demo.th8.b64sig" ∨
        zName = keyUrl (ascii "0123456789abcdef") ++ ascii ".b64sig" then
      some (ascii "#\n#\n# signed -- 0123456789abcdef\n#\nAAEC\n")
    else none
  rsaKeyLoad := fun _ => some ()
  rsaKeyTokenHex := fun _ => ascii "0123456789abcdef"
  rsaKeyBitLen := fun _ => 1024
  rsaVerify := fun _ _ _ => true
  attrFlagsParse := fun _ => true
  isSignedOnlyEnabled := true
  forceHttpsTime := false
  httpsTimeQuery := none
  ntpQuery := none
  getTimeMs := none

theorem verifyData_selfSigned_diverges :
    ¬ ∀ (env : Env Unit) (s : PolicyState Unit) (zName zData : Bytes), ∃ fuel,
      (verifyData env (fun _ => Faults.none) fuel 0 s zName zData).isSome := by
  intro h
  obtain ⟨fuel, hfuel⟩ := h selfSigned PolicyState.init (ascii "demo.th8") (ascii "puts demo")
  have hstops := (verifyData_isSome_iff ..).mp hfuel
  have hvisit : ∀ n, n = 1 ∨ n = 2 →
      visit selfSigned (fun _ => Faults.none) none 0 n
        (ascii "demo.th8", ascii "puts demo") =
      some (keyUrl (ascii "0123456789abcdef"), ascii "key") := by
    rintro n (rfl | rfl)
    · decide
    · decide
  have hone : (1 : ℕ) = 2 :=
    walk_injective_of_stops hstops (hvisit 1 (.inl rfl)) (hvisit 2 (.inr rfl))
  omega

end Termination

end Th8.Policy
