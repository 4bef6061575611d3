import Th8.Policy.Chain

/-!
# What a failed verification leaves behind

Step 1 clears the verification flag so that a failure cannot leave it set, and the
reset of the `::th8_security` array waits for step 8 so that a failure cannot clobber
it.  Two things get in the way.  Step 2 writes the annotations to the array before
anything is verified, and the verification of a fetched key sets the flag and fills
the array before the signature at hand is checked.
-/

namespace Th8.Policy

open Support Option

variable {Key : Type} (env : Env Key) (f : Faults)

/-! ## Step 8 -/

def recordsFully : Bool :=
  (securityElems.all fun e => !f.fails (.reset e)) && (drawToken f.randomBytes 100 0 0).isSome

def recordedSecurity (zName : Bytes) (c : Credentials) (pKey : Key) (sec : Security) : Security :=
  match resetSecurity f sec with
  | (sec, false) => sec
  | (sec, true) =>
    writeAnnotations f .reapply c.ann (populateSecurity env f pKey c.zToken zName sec)

theorem resetElems_snd (es : List SecElem) (sec : Security) :
    (resetElems f es sec).2 = es.all fun e => !f.fails (.reset e) := by
  induction es generalizing sec with
  | nil => rfl
  | cons e es ih =>
    rw [resetElems]
    cases hfails : f.fails (.reset e) with
    | true => simp [hfails]
    | false => simp [hfails, ih]

theorem drawToken_ne_zero {randomBytes : ℕ → Option UInt64} {n i : ℕ} {tok t : UInt64}
    (h : drawToken randomBytes n i tok = some t) : t ≠ 0 := by
  induction n generalizing i tok with
  | zero => cases h
  | succ n ih =>
    rw [drawToken] at h
    split_ifs at h with hbad
    · exact ih h
    · cases h
      exact fun hzero => hbad (.inl hzero)

theorem setVerified_spec (s : PolicyState Key) :
    (∃ tok, drawToken f.randomBytes 100 0 0 = some tok ∧
      setVerified f s = ({ s with nVerifyToken := tok, nVerifyOk := tok }, .ok ()) ∧
      (setVerified f s).1.isVerified = true) ∨
    (drawToken f.randomBytes 100 0 0 = none ∧ ∃ e, setVerified f s = (s, .error e)) := by
  unfold setVerified
  cases hdraw : drawToken f.randomBytes 100 0 0 with
  | none => exact .inr ⟨rfl, _, rfl⟩
  | some tok =>
    refine .inl ⟨tok, rfl, rfl, ?_⟩
    simp [PolicyState.isVerified, drawToken_ne_zero hdraw]

variable (s : PolicyState Key) (zName zData : Bytes) (c : Credentials) (pKey : Key)

theorem recordSuccess_of_recordsFully (h : recordsFully f = true) :
    ∃ s', recordSuccess env f s zName c pKey = (s', .ok ()) ∧
      s'.isVerified = true ∧ s'.paKeys = s.paKeys := by
  obtain ⟨hreset, hdraw⟩ := Bool.and_eq_true_iff.mp h
  have hsnd : (resetSecurity f s.security).2 = true := (resetElems_snd f _ s.security).trans hreset
  unfold recordSuccess
  rcases hsec : resetSecurity f s.security with ⟨sec, full⟩
  obtain rfl : full = true := by simpa [hsec] using hsnd
  dsimp only
  rcases setVerified_spec f { s with
    security := writeAnnotations f .reapply c.ann
      (populateSecurity env f pKey c.zToken zName sec) } with
    ⟨tok, -, heq, hverified⟩ | ⟨hnone, -⟩
  · rw [heq] at hverified ⊢
    exact ⟨_, rfl, hverified, rfl⟩
  · simp [hnone] at hdraw

theorem recordSuccess_of_not_recordsFully (h : recordsFully f = false) :
    ∃ e, recordSuccess env f s zName c pKey =
      ({ s with security := recordedSecurity env f zName c pKey s.security }, .error e) := by
  unfold recordSuccess recordedSecurity
  rcases hsec : resetSecurity f s.security with ⟨sec, full⟩
  cases full with
  | false => exact ⟨_, rfl⟩
  | true =>
    rcases setVerified_spec f { s with
      security := writeAnnotations f .reapply c.ann
        (populateSecurity env f pKey c.zToken zName sec) } with
      ⟨tok, hdraw, -, -⟩ | ⟨-, e, heq⟩
    · have hreset := (resetElems_snd f _ s.security).symm.trans (congrArg Prod.snd hsec)
      rw [recordsFully, hreset, hdraw] at h
      cases h
    · exact ⟨e, heq⟩

def concludedSecurity (sec : Security) : Security :=
  if signatureHolds env f zData c pKey then recordedSecurity env f zName c pKey sec
  else sec

theorem conclude_of_pass (h : (signatureHolds env f zData c pKey && recordsFully f) = true) :
    ∃ s', conclude env f s zName zData c pKey = (s', .ok ()) ∧
      s'.isVerified = true ∧ s'.paKeys = s.paKeys := by
  obtain ⟨hsig, hrecord⟩ := Bool.and_eq_true_iff.mp h
  rw [conclude, if_pos hsig]
  exact recordSuccess_of_recordsFully env f s zName c pKey hrecord

theorem conclude_of_fail (h : (signatureHolds env f zData c pKey && recordsFully f) = false) :
    ∃ e, conclude env f s zName zData c pKey =
      ({ s with
          security := concludedSecurity env f zName zData c pKey s.security },
        .error e) := by
  unfold conclude concludedSecurity
  cases hsig : signatureHolds env f zData c pKey with
  | false => exact ⟨_, rfl⟩
  | true =>
    rw [hsig, Bool.true_and] at h
    exact recordSuccess_of_not_recordsFully env f s zName c pKey h

/-! ## One level of the chain -/

def availableKey (paKeys : Option (Bytes → Option Key)) : Option Key :=
  match findKey paKeys c.zToken with
  | some pKey => some pKey
  | none =>
    (servedKey env f (keyUrl c.zToken)).bind fun zKey =>
      (loadKey env f c.zToken zKey).toOption

def passes (paKeys : Option (Bytes → Option Key)) (v : Bytes × Bytes) : Bool :=
  match credentials env f v.1 v.2 with
  | .error _ => false
  | .ok c =>
    match availableKey env f c paKeys with
    | none => false
    | some pKey => signatureHolds env f v.2 c pKey && recordsFully f

def rejectedSecurity (paKeys : Option (Bytes → Option Key)) (v : Bytes × Bytes)
    (sec : Security) : Security :=
  match credentials env f v.1 v.2 with
  | .error _ => annotated env f v.2 sec
  | .ok c =>
    match findKey paKeys c.zToken with
    | none => annotated env f v.2 sec
    | some pKey => concludedSecurity env f v.1 v.2 c pKey (annotated env f v.2 sec)

variable (faults : ℕ → Faults)

variable {v : Bytes × Bytes}

theorem verifyData_of_nextVisit_none (hsigned : env.isSignedOnlyEnabled = true) {fuel level : ℕ}
    {s s' : PolicyState Key} {r : Except ErrorText Unit}
    (hnext : nextVisit env (faults level) s.paKeys v = none)
    (h : verifyData env faults (fuel + 1) level s v.1 v.2 = some (s', r)) :
    (passes env (faults level) s.paKeys v = true ∧ r = .ok () ∧
      s'.isVerified = true ∧ s'.paKeys.isSome) ∨
    (passes env (faults level) s.paKeys v = false ∧ (∃ e, r = .error e) ∧ s'.isVerified = false ∧
      s'.security = rejectedSecurity env (faults level) s.paKeys v s.security) := by
  rw [verifyData_succ, hsigned] at h
  simp only [Bool.true_eq_false, if_false] at h
  simp only [nextVisit, missingToken, hsigned, if_true] at hnext
  unfold passes rejectedSecurity
  cases hc : credentials env (faults level) v.1 v.2 with
  | error e =>
    simp only [hc, some.injEq, Prod.mk.injEq] at h
    obtain ⟨rfl, rfl⟩ := h
    exact .inr ⟨rfl, ⟨e, rfl⟩, rfl, rfl⟩
  | ok c =>
    simp only [hc, verifySigned, obtainKey, openState_paKeys] at h hnext
    cases hkey : findKey s.paKeys c.zToken with
    | none =>
      simp only [hkey, isNone_none, if_true, bind_some, map_eq_none_iff] at h hnext
      simp only [fetchKey, getData, hnext, map_some, some.injEq, Prod.mk.injEq] at h
      obtain ⟨rfl, rfl⟩ := h
      refine .inr ⟨?_, ⟨_, rfl⟩, rfl, ?_⟩
      · simp [availableKey, hkey, hnext]
      · simp [hkey]
    | some pKey =>
      simp only [hkey, map_some, some.injEq] at h
      simp only [availableKey, hkey]
      cases hpass : signatureHolds env (faults level) v.2 c pKey && recordsFully (faults level) with
      | true =>
        obtain ⟨t, ht, hverified, hkeys⟩ := conclude_of_pass env (faults level)
          (openState env (faults level) s v.2) v.1 v.2 c pKey hpass
        obtain ⟨rfl, rfl⟩ := Prod.mk.inj (ht.symm.trans h)
        refine .inl ⟨rfl, rfl, hverified, ?_⟩
        rw [hkeys, openState_paKeys]
        obtain ⟨keys, hkeys, -⟩ := bind_eq_some_iff.mp hkey
        exact hkeys ▸ rfl
      | false =>
        obtain ⟨e, he⟩ := conclude_of_fail env (faults level)
          (openState env (faults level) s v.2) v.1 v.2 c pKey hpass
        obtain ⟨rfl, rfl⟩ := Prod.mk.inj (he.symm.trans h)
        exact .inr ⟨rfl, ⟨e, rfl⟩, rfl, rfl⟩

def afterKeyRead (zKey : Bytes) :
    PolicyState Key × Except ErrorText Unit → PolicyState Key × Except ErrorText Unit
  | (s, .error _) =>
    (s, .error (errorMessage "signed-only: cannot fetch public key from \"" (keyUrl c.zToken)))
  | (s, .ok ()) =>
    match loadKey env f c.zToken zKey with
    | .error e => (s, .error e)
    | .ok pKey =>
      match cacheKey f s c.zToken pKey with
      | (s, .error e) => (s, .error e)
      | (s, .ok pKey) => conclude env f s zName zData c pKey

theorem verifyData_of_nextVisit_some (hsigned : env.isSignedOnlyEnabled = true) {level : ℕ}
    {s : PolicyState Key} {w : Bytes × Bytes}
    (hnext : nextVisit env (faults level) s.paKeys v = some w) (fuel : ℕ) :
    ∃ c, credentials env (faults level) v.1 v.2 = .ok c ∧
      availableKey env (faults level) c s.paKeys =
        (loadKey env (faults level) c.zToken w.2).toOption ∧
      verifyData env faults (fuel + 1) level s v.1 v.2 =
        (verifyData env faults fuel (level + 1) (openState env (faults level) s v.2)
          w.1 w.2).map (afterKeyRead env (faults level) v.1 v.2 c w.2) := by
  rw [verifyData_succ, hsigned]
  simp only [nextVisit, missingToken, hsigned, if_true] at hnext
  obtain ⟨zToken, htoken, hserved⟩ := bind_eq_some_iff.mp hnext
  obtain ⟨zKey, hzKey, rfl⟩ := map_eq_some_iff.mp hserved
  cases hc : credentials env (faults level) v.1 v.2 with
  | error e => simp [hc] at htoken
  | ok c =>
    simp only [hc, ite_none_right_eq_some, some.injEq, isNone_iff_eq_none] at htoken
    obtain ⟨hkey, rfl⟩ := htoken
    refine ⟨c, rfl, by simp [availableKey, hkey, hzKey], ?_⟩
    simp only [Bool.true_eq_false, if_false, verifySigned, obtainKey, openState_paKeys,
      hkey, fetchKey, getData, hzKey, map_map]
    refine congrArg (Option.map · _) (funext ?_)
    rintro ⟨t, rc⟩
    cases rc with
    | error e => rfl
    | ok u =>
      simp only [Function.comp, afterKeyRead, map_ok]
      cases loadKey env (faults level) c.zToken zKey with
      | error e => rfl
      | ok pKey => rfl

theorem cacheKey_of_isSome (zToken : Bytes) (hkeys : s.paKeys.isSome) :
    ∃ paKeys, cacheKey f s zToken pKey = ({ s with paKeys := some paKeys }, .ok pKey) := by
  obtain ⟨keys, hkeys⟩ := isSome_iff_exists.mp hkeys
  unfold cacheKey
  rw [hkeys]
  simp only [getD_some, ite_self]
  split_ifs
  · exact ⟨keys, rfl⟩
  · exact ⟨_, rfl⟩

theorem afterKeyRead_ok {paKeys : Option (Bytes → Option Key)} {zKey : Bytes}
    (hc : credentials env f v.1 v.2 = .ok c)
    (hkey : availableKey env f c paKeys = (loadKey env f c.zToken zKey).toOption)
    (hverified : s.isVerified = true) (hkeys : s.paKeys.isSome) :
    ∃ s' r, afterKeyRead env f v.1 v.2 c zKey (s, .ok ()) = (s', r) ∧ s'.isVerified = true ∧
      ((passes env f paKeys v = true ∧ r = .ok () ∧ s'.paKeys.isSome) ∨
        (passes env f paKeys v = false ∧ ∃ e, r = .error e)) := by
  simp only [passes, hc, hkey, afterKeyRead]
  cases loadKey env f c.zToken zKey with
  | error e => exact ⟨s, .error e, rfl, hverified, .inr ⟨rfl, e, rfl⟩⟩
  | ok pKey =>
    obtain ⟨keys, hcache⟩ := cacheKey_of_isSome f s pKey c.zToken hkeys
    simp only [hcache, Except.toOption]
    cases hpass : signatureHolds env f v.2 c pKey && recordsFully f with
    | true =>
      obtain ⟨t, ht, htverified, htkeys⟩ :=
        conclude_of_pass env f { s with paKeys := some keys } v.1 v.2 c pKey hpass
      exact ⟨t, .ok (), ht, htverified, .inl ⟨rfl, rfl, htkeys ▸ rfl⟩⟩
    | false =>
      obtain ⟨e, he⟩ := conclude_of_fail env f { s with paKeys := some keys } v.1 v.2 c pKey hpass
      exact ⟨_, .error e, he, hverified, .inr ⟨rfl, e, rfl⟩⟩

/-! ## The whole chain -/

def AllPass (paKeys : Option (Bytes → Option Key)) (level : ℕ) (v : Bytes × Bytes) : Prop :=
  ∀ i w, visit env faults paKeys level i v = some w →
    passes env (faults (level + i)) paKeys w = true

/-- The array once the first `n` levels have written their annotations. -/
def annotatedAbove (paKeys : Option (Bytes → Option Key)) :
    ℕ → ℕ → Bytes × Bytes → Security → Security
  | 0, _, _, sec => sec
  | n + 1, level, v, sec =>
    match nextVisit env (faults level) paKeys v with
    | none => sec
    | some w =>
      annotatedAbove paKeys n (level + 1) w (annotated env (faults level) v.2 sec)

/-- The chain ends after `k` levels, at `w`. -/
def EndsAt (paKeys : Option (Bytes → Option Key)) (level : ℕ) (v : Bytes × Bytes)
    (k : ℕ) (w : Bytes × Bytes) : Prop :=
  visit env faults paKeys level k v = some w ∧ visit env faults paKeys level (k + 1) v = none

section Levels

variable {env f faults} {s : PolicyState Key} {paKeys : Option (Bytes → Option Key)}
  {level : ℕ} {v w : Bytes × Bytes}

theorem allPass_of_nextVisit_none (hnext : nextVisit env (faults level) paKeys v = none) :
    AllPass env faults paKeys level v ↔ passes env (faults level) paKeys v = true := by
  refine ⟨fun h => h 0 v rfl, fun h i u hu => ?_⟩
  cases i with
  | zero =>
    cases hu
    exact h
  | succ i => simp [visit, walk_succ, hnext] at hu

theorem allPass_of_nextVisit_some (hnext : nextVisit env (faults level) paKeys v = some w) :
    AllPass env faults paKeys level v ↔
      passes env (faults level) paKeys v = true ∧ AllPass env faults paKeys (level + 1) w := by
  have hsucc : ∀ i, visit env faults paKeys level (i + 1) v =
      visit env faults paKeys (level + 1) i w := by
    intro i
    simp [visit, walk_succ, hnext]
  constructor
  · refine fun h => ⟨h 0 v rfl, fun i u hu => ?_⟩
    have := h (i + 1) u (by rw [hsucc, hu])
    rwa [show level + (i + 1) = level + 1 + i by omega] at this
  · rintro ⟨hv, hw⟩ i u hu
    cases i with
    | zero =>
      cases hu
      exact hv
    | succ i =>
      rw [hsucc] at hu
      rw [show level + (i + 1) = level + 1 + i by omega]
      exact hw i u hu

theorem endsAt_zero (hnext : nextVisit env (faults level) paKeys v = none) :
    EndsAt env faults paKeys level v 0 v :=
  ⟨rfl, by simp [visit, walk_succ, hnext]⟩

theorem EndsAt.succ {k : ℕ} {u : Bytes × Bytes}
    (hnext : nextVisit env (faults level) paKeys v = some w)
    (h : EndsAt env faults paKeys (level + 1) w k u) :
    EndsAt env faults paKeys level v (k + 1) u := by
  obtain ⟨hsome, hnone⟩ := h
  refine ⟨?_, ?_⟩
  · simpa [visit, walk_succ _, hnext] using hsome
  · rw [visit, walk_succ, hnext]
    exact hnone

theorem verifyData_outcome (hsigned : env.isSignedOnlyEnabled = true) {fuel : ℕ}
    {s' : PolicyState Key} {r : Except ErrorText Unit}
    (h : verifyData env faults fuel level s v.1 v.2 = some (s', r)) :
    (AllPass env faults s.paKeys level v ∧ r = .ok () ∧ s'.isVerified = true ∧ s'.paKeys.isSome) ∨
    (¬ AllPass env faults s.paKeys level v ∧ (∃ e, r = .error e) ∧
      ∃ k w, EndsAt env faults s.paKeys level v k w ∧
        ((passes env (faults (level + k)) s.paKeys w = true ∧ s'.isVerified = true) ∨
          (passes env (faults (level + k)) s.paKeys w = false ∧ s'.isVerified = false ∧
            s'.security = rejectedSecurity env (faults (level + k)) s.paKeys w
              (annotatedAbove env faults s.paKeys k level v s.security)))) := by
  induction fuel generalizing level s v s' r with
  | zero => cases h
  | succ fuel ih =>
    cases hnext : nextVisit env (faults level) s.paKeys v with
    | none =>
      rw [allPass_of_nextVisit_none hnext]
      rcases verifyData_of_nextVisit_none env faults hsigned hnext h with
        ⟨hpass, hok⟩ | ⟨hpass, herror, hflag, hsec⟩
      · exact .inl ⟨hpass, hok⟩
      · refine .inr ⟨by simp [hpass], herror, 0, v, endsAt_zero hnext, .inr ?_⟩
        exact ⟨hpass, hflag, hsec⟩
    | some w =>
      rw [allPass_of_nextVisit_some hnext]
      obtain ⟨c, hc, hkey, heq⟩ := verifyData_of_nextVisit_some env faults hsigned hnext fuel
      obtain ⟨⟨t, rc⟩, hnested, hafter⟩ := map_eq_some_iff.mp (heq.symm.trans h)
      rcases ih hnested with ⟨hall, rfl, hflag, hkeys⟩ | ⟨hall, ⟨e, rfl⟩, k, u, hends, hend⟩
      · -- the key was verified, so the flag is set from here on
        obtain ⟨t', r', hafter', hflag', hout⟩ :=
          afterKeyRead_ok env (faults level) t c hc hkey hflag hkeys
        obtain ⟨rfl, rfl⟩ := Prod.mk.inj (hafter'.symm.trans hafter)
        rcases hout with ⟨hpass, hok, hkeys'⟩ | ⟨hpass, herror⟩
        · exact .inl ⟨⟨hpass, hall⟩, hok, hflag', hkeys'⟩
        · obtain ⟨k, u, hu, hlast⟩ := exists_last_of_stops
            ((verifyData_isSome_iff ..).mp (isSome_of_eq_some hnested))
          have hends : EndsAt env faults s.paKeys (level + 1) w k u := ⟨hu, hlast⟩
          refine .inr ⟨by simp [hpass], herror, k + 1, u, hends.succ hnext, .inl ?_⟩
          rw [show level + (k + 1) = level + 1 + k by omega]
          exact ⟨hall k u hu, hflag'⟩
      · -- the verification of the key failed
        cases hafter
        refine .inr ⟨fun hboth => hall hboth.2, ⟨_, rfl⟩, k + 1, u, hends.succ hnext, ?_⟩
        simpa [annotatedAbove, hnext, show level + (k + 1) = level + 1 + k by omega] using hend

end Levels

def LeavesNoTrace (s s' : PolicyState Key) (r : Except ErrorText Unit) : Prop :=
  ∀ e, r = .error e → s'.isVerified = false ∧ s'.security = s.security

def noFiles : Env Unit where
  xGetData := fun _ => none
  rsaKeyLoad := fun _ => none
  rsaKeyTokenHex := fun _ => ascii "0123456789abcdef"
  rsaKeyBitLen := fun _ => 1024
  rsaVerify := fun _ _ _ => false
  attrFlagsParse := fun _ => true
  isSignedOnlyEnabled := true
  forceHttpsTime := false
  httpsTimeQuery := none
  ntpQuery := none
  getTimeMs := some 1700000000000

theorem verifyData_noFiles {zData : Bytes}
    (hc : credentials noFiles Faults.none (ascii "demo.th8") zData =
      .error (errorMessage "signed-only: cannot read signature file \""
        (ascii "demo.th8.b64sig"))) :
    verifyData noFiles (fun _ => Faults.none) 1 0 PolicyState.init (ascii "demo.th8") zData =
      some (openState noFiles Faults.none PolicyState.init zData,
        .error (errorMessage "signed-only: cannot read signature file \""
          (ascii "demo.th8.b64sig"))) := by
  rw [verifyData_succ, hc]
  rfl

end Th8.Policy
