import Th8.Support.Transition
import Th8.Policy.FailureEffects
import Th8.Policy.Session

/-!
# Soundness of signed-only

A script that starts at the top level should be trusted by its caller or be what was
verified for its own evaluation.  The flag does not remember what was verified.  So
this holds as long as the flag is clear whenever no evaluation is under way, which is
up to the operations at the top level: a read whose data is not evaluated leaves the
flag set, and so does a verified evaluation that ends without its clean-up.
-/

namespace Th8.Policy

open Support Option Bool

variable {Key : Type}

def LastPasses (env : Env Key) (faults : ℕ → Faults)
    (paKeys : Option (Bytes → Option Key)) (v : Bytes × Bytes) : Prop :=
  ∃ k w, EndsAt env faults paKeys 0 v k w ∧ passes env (faults k) paKeys w = true

variable {s : PolicyState Key} {zName : Bytes}

theorem verifyData_flag {env : Env Key} {faults : ℕ → Faults} {fuel : ℕ} {s' : PolicyState Key}
    {zData : Bytes} {r : Except ErrorText Unit} (hsigned : env.isSignedOnlyEnabled = true)
    (h : verifyData env faults fuel 0 s zName zData = some (s', r)) :
    (s'.isVerified = true ↔ LastPasses env faults s.paKeys (zName, zData)) ∧
      (AllPass env faults s.paKeys 0 (zName, zData) ↔ r = .ok ()) := by
  have hout := verifyData_outcome (v := (zName, zData)) hsigned h
  simp only [Nat.zero_add] at hout
  rcases hout with ⟨hall, rfl, hflag, -⟩ | ⟨hall, ⟨e, rfl⟩, k, w, hends, hend⟩
  · obtain ⟨k, w, hw, hlast⟩ := exists_last_of_stops
      ((verifyData_isSome_iff ..).mp (isSome_of_eq_some h))
    have hpass := hall k w hw
    rw [Nat.zero_add] at hpass
    exact ⟨⟨fun _ => ⟨k, w, ⟨hw, hlast⟩, hpass⟩, fun _ => hflag⟩, by simp [hall]⟩
  · refine ⟨⟨fun hflag => ?_, ?_⟩, by simp [hall]⟩
    · rcases hend with ⟨hpass, -⟩ | ⟨-, hclear, -⟩
      · exact ⟨k, w, hends, hpass⟩
      · simp [hclear] at hflag
    · rintro ⟨l, u, hends', hpass'⟩
      obtain ⟨rfl, rfl⟩ := last_unique hends.1 hends.2 hends'.1 hends'.2
      rcases hend with ⟨-, hflag⟩ | ⟨hfail, -⟩
      · exact hflag
      · simp [hpass'] at hfail

/-- An evaluation that starts at the top level, with the flag set or not, does not leave
it set unless it is under way. -/
def StartKeepsFlag (k : Call Key) (paKeys : Option (Bytes → Option Key)) (flagged : Bool)
    (zName zScript : Bytes) (fault : StartFault) : Prop :=
  if fault = .notReady then flagged = false
  else
    match checkedAnnotations k.env zScript, flagged && !clearsByTime k.env zScript with
    | .error _, flagged => flagged = false
    | .ok _, true => fault ≠ .noCleanup
    | .ok _, false =>
      zName ≠ [] → LastPasses k.env k.faults paKeys (zName, zScript) →
        AllPass k.env k.faults paKeys 0 (zName, zScript) ∧ fault ≠ .noCleanup

/-- At the top level, data that verification accepts is only read to be evaluated, a
verified evaluation gets as far as its clean-up, and no fetched key is accepted on
behalf of data that is not.  An evaluation at the top level is not unwound while the
flag is set. -/
def Disciplined (m : Session Key) : HostOp Key → Prop
  | .getData k zName =>
    m.nEvalDepth = 0 → ∀ zData, k.env.xGetData zName = some zData →
      ¬ LastPasses k.env k.faults m.policy.paKeys (zName, zData)
  | .eval k _ zName zScript _ fault =>
    m.nEvalDepth = 0 → StartKeepsFlag k m.policy.paKeys false zName zScript fault
  | .evalFile kRead kEval zName fault =>
    m.nEvalDepth = 0 →
      (∀ zData, kRead.env.xGetData zName = some zData →
        LastPasses kRead.env kRead.faults m.policy.paKeys (zName, zData) →
        AllPass kRead.env kRead.faults m.policy.paKeys 0 (zName, zData)) ∧
      ∀ s zData, readData kRead m zName = some (s, .ok zData) →
        StartKeepsFlag kEval s.paKeys true zName (translateCrLfToLf zData) fault
  | .finish cancelled =>
    ∀ fr ∈ m.evals.head?, fr.sync = true → cancelled = true → fr.nSavedDepth = 0 →
      1 < m.nEvalDepth → m.policy.isVerified = false
  | .unwind =>
    ∀ fr ∈ (m.evals.dropWhile fun fr => !fr.sync).head?, fr.nSavedDepth = 0 →
      m.policy.isVerified = false

/-! ## One operation -/

def FlagClear (m : Session Key) : Prop :=
  m.nEvalDepth = 0 → m.policy.isVerified = false

/-- The caller vouches for the script, or its own bytes were verified for this
evaluation, as they were read or as they are evaluated. -/
def Start.Sound (st : Start) : Prop :=
  st.nEvalDepth = 1 →
    st.trusted = true ∨ st.own = some st.zScript ∨
      ∃ zData, st.own = some zData ∧ st.zScript = translateCrLfToLf zData

variable {k : Call Key}

theorem evalPre_top {s' : PolicyState Key} {zScript : Bytes} {trusted : Bool}
    {r : Except ErrorText Gate} (hsigned : k.env.isSignedOnlyEnabled = true)
    (h : evalPre k 1 s zName zScript trusted = some (s', r)) :
    let s₁ := (annotationStep k.env k.pre s zScript).1
    (∃ e, checkedAnnotations k.env zScript = .error e ∧ r = .error e ∧ s' = s₁) ∨
    ∃ ann, checkedAnnotations k.env zScript = .ok ann ∧
      ((s₁.isVerified = true ∧ r = .ok .verified ∧ s' = s₁) ∨
        (s₁.isVerified = false ∧ zName = [] ∧ s' = s₁ ∧
          ((trusted = true ∧ r = .ok .trusted) ∨ ∃ e, r = .error e)) ∨
        (s₁.isVerified = false ∧ zName ≠ [] ∧ ∃ rc,
          verifyData k.env k.faults k.fuel 0 s₁ zName zScript = some (s', rc) ∧
          r = rc.map fun _ => .inline)) := by
  intro s₁
  have hsnd := annotationStep_snd k.env k.pre s zScript
  unfold evalPre evalAnnotations at h
  simp only [le_refl, if_true, hsigned, true_eq_false, if_false, hsnd] at h
  cases hann : checkedAnnotations k.env zScript with
  | error e =>
    simp only [hann, some.injEq, Prod.mk.injEq] at h
    exact .inl ⟨e, rfl, h.2.symm, h.1.symm⟩
  | ok ann =>
    refine .inr ⟨ann, rfl, ?_⟩
    simp only [hann, lt_irrefl, if_false] at h
    cases hflag : s₁.isVerified with
    | true =>
      simp only [s₁] at hflag
      simp only [hflag, if_true, some.injEq, Prod.mk.injEq] at h
      exact .inl ⟨rfl, h.2.symm, h.1.symm⟩
    | false =>
      simp only [s₁] at hflag
      simp only [hflag, false_eq_true, if_false] at h
      refine .inr ?_
      split_ifs at h with hname htrusted
      · cases h
        exact .inl ⟨rfl, hname, rfl, .inl ⟨htrusted, rfl⟩⟩
      · cases h
        exact .inl ⟨rfl, hname, rfl, .inr ⟨_, rfl⟩⟩
      · obtain ⟨⟨t, rc⟩, hverify, hout⟩ := map_eq_some_iff.mp h
        cases hout
        exact .inr ⟨rfl, hname, rc, hverify, rfl⟩

theorem evalLocal_cases {m m' : Session Key} {sync : Bool} {zScript : Bytes} {trusted : Bool}
    {own : Option Bytes} {fault : StartFault}
    (h : evalLocal k m sync zName zScript trusted own fault = some m') :
    (m' = m ∧ (fault = .notReady ∨ 1000 < m.nEvalDepth)) ∨
    ∃ s r, fault ≠ .notReady ∧
      evalPre k (m.nEvalDepth + 1) m.policy zName zScript trusted = some (s, r) ∧
      ((∃ e, r = .error e ∧ m' = { m with policy := s }) ∨
        ∃ gate, r = .ok gate ∧
          ((m'.nEvalDepth = m.nEvalDepth + 1 ∧
              (m'.starts = m.starts ∨
                m'.starts = ⟨zScript, m.nEvalDepth + 1, trusted, gate,
                  if gate = .inline then some zScript else own⟩ :: m.starts)) ∨
            (m' = { m with policy := s } ∧ fault = .noCleanup) ∨
            m' = { m with policy := evalPost (m.nEvalDepth + 1) s })) := by
  unfold evalLocal at h
  split_ifs at h with hready
  · cases h
    exact .inl ⟨rfl, hready⟩
  · obtain ⟨⟨s, r⟩, hpre, hout⟩ := map_eq_some_iff.mp h
    refine .inr ⟨s, r, fun hfault => hready (.inl hfault), hpre, ?_⟩
    cases r with
    | error e => exact .inl ⟨e, rfl, hout.symm⟩
    | ok gate =>
      refine .inr ⟨gate, rfl, ?_⟩
      cases fault with
      | noState =>
        cases hout
        exact .inl ⟨rfl, .inl rfl⟩
      | noCleanup => exact .inr (.inl ⟨hout.symm, rfl⟩)
      | noIteration => exact .inr (.inr hout.symm)
      | none =>
        cases hout
        exact .inl ⟨rfl, .inr rfl⟩
      | notReady => exact absurd (.inl rfl) hready

section Eval

variable {k : Call Key} {m m' : Session Key} {sync : Bool} {zName zScript : Bytes}
  {trusted : Bool} {own : Option Bytes} {fault : StartFault}

section

variable (hsigned : k.env.isSignedOnlyEnabled = true)

include hsigned

theorem evalPre_keepsFlag {s s' : PolicyState Key} {r : Except ErrorText Gate} (hkeep :
    StartKeepsFlag k s.paKeys s.isVerified zName zScript fault)
    (hfault : fault ≠ .notReady) (h : evalPre k 1 s zName zScript trusted = some (s', r))
    (hstops : (∃ e, r = .error e) ∨ fault = .noCleanup) : s'.isVerified = false := by
  have hflag := annotationStep_isVerified k.env k.pre s zScript
  have hkeys := annotationStep_paKeys k.env k.pre s zScript
  unfold StartKeepsFlag at hkeep
  rw [if_neg hfault, ← hflag] at hkeep
  rcases evalPre_top hsigned h with ⟨e, hann, -, rfl⟩ | ⟨ann, hann, hgate⟩
  · simpa [hann] using hkeep
  rcases hgate with ⟨hset, rfl, rfl⟩ | ⟨hclear, -, rfl, -⟩ | ⟨hclear, hname, rc, hverify, rfl⟩
  · simp only [hann, hset] at hkeep
    rcases hstops with ⟨e, he⟩ | hcleanup
    · cases he
    · exact absurd hcleanup hkeep
  · exact hclear
  · simp only [hann, hclear] at hkeep
    obtain ⟨hlast, hall⟩ := verifyData_flag hsigned hverify
    rw [hkeys] at hlast hall
    by_contra hset
    rw [not_eq_false, hlast] at hset
    obtain ⟨hpass, hcleanup⟩ := hkeep hname hset
    rw [hall] at hpass
    rcases hstops with ⟨e, he⟩ | hno
    · rw [hpass] at he
      cases he
    · exact hcleanup hno

theorem evalLocal_flagClear (hkeep : m.nEvalDepth = 0 →
      StartKeepsFlag k m.policy.paKeys m.policy.isVerified zName zScript fault)
    (h : evalLocal k m sync zName zScript trusted own fault = some m') :
    FlagClear m' := by
  intro hzero
  rcases evalLocal_cases h with ⟨rfl, hready⟩ | ⟨s, r, hfault, hpre, hout⟩
  · have hkeep := hkeep hzero
    have hfault : fault = .notReady := hready.resolve_right (by omega)
    rwa [StartKeepsFlag, if_pos hfault] at hkeep
  rcases hout with ⟨e, rfl, rfl⟩ | ⟨gate, rfl, hdepth | ⟨rfl, hcleanup⟩ | rfl⟩
  · have hdepth : m.nEvalDepth = 0 := hzero
    rw [hdepth] at hpre
    exact evalPre_keepsFlag hsigned (hkeep hdepth) hfault hpre (.inl ⟨e, rfl⟩)
  · omega
  · have hdepth : m.nEvalDepth = 0 := hzero
    rw [hdepth] at hpre
    exact evalPre_keepsFlag hsigned (hkeep hdepth) hfault hpre (.inr hcleanup)
  · have hdepth : m.nEvalDepth = 0 := hzero
    simp [evalPost, hdepth, PolicyState.clearVerified, PolicyState.isVerified]

theorem evalLocal_sound (hsound : ∀ st ∈ m.starts, st.Sound)
    (hown : m.nEvalDepth = 0 → m.policy.isVerified = false ∨
      ∃ zData, own = some zData ∧ zScript = translateCrLfToLf zData)
    (h : evalLocal k m sync zName zScript trusted own fault = some m') :
    ∀ st ∈ m'.starts, st.Sound := by
  rcases evalLocal_cases h with ⟨rfl, -⟩ | ⟨s, r, -, hpre, hout⟩
  · exact hsound
  rcases hout with ⟨e, -, rfl⟩ | ⟨gate, rfl, ⟨-, hstarts | hstarts⟩ | ⟨rfl, -⟩ | rfl⟩
  · exact hsound
  · rwa [hstarts]
  · rw [hstarts]
    refine List.forall_mem_cons.mpr ⟨fun hone => ?_, hsound⟩
    have hdepth : m.nEvalDepth = 0 := Nat.succ_injective hone
    by_cases hinline : gate = .inline
    · exact .inr (.inl (by simp [hinline]))
    rcases hown hdepth with hclear | ⟨zData, rfl, hscript⟩
    · rw [hdepth] at hpre
      have hflag := annotationStep_isVerified k.env k.pre m.policy zScript
      rw [hclear, Bool.false_and] at hflag
      rcases evalPre_top hsigned hpre with ⟨e, -, he, -⟩ | ⟨ann, -, hgate⟩
      · cases he
      rcases hgate with ⟨hset, -⟩ | ⟨-, -, -, ⟨htrusted, -⟩ | ⟨e, he⟩⟩ | ⟨-, -, rc, -, hrc⟩
      · simp [hflag] at hset
      · exact .inl htrusted
      · cases he
      · cases rc with
        | error e => cases hrc
        | ok u =>
          cases hrc
          exact absurd rfl hinline
    · exact .inr (.inr ⟨zData, by simp [hinline], hscript⟩)
  · exact hsound
  · exact hsound

end

end Eval

theorem readData_cases {m : Session Key} {r : Except ErrorText Bytes}
    (h : readData k m zName = some (s, r)) :
    (s = m.policy ∧ ∃ e, r = .error e) ∨
    ∃ zData rc, k.env.xGetData zName = some zData ∧
      verifyData k.env k.faults k.fuel 0 m.policy zName zData = some (s, rc) ∧
      r = rc.map fun _ => zData := by
  unfold readData getData at h
  cases hdata : k.env.xGetData zName with
  | none =>
    simp only [hdata, some.injEq, Prod.mk.injEq] at h
    exact .inl ⟨h.1.symm, _, h.2.symm⟩
  | some zData =>
    simp only [hdata] at h
    obtain ⟨⟨t, rc⟩, hverify, hout⟩ := map_eq_some_iff.mp h
    cases hout
    exact .inr ⟨zData, rc, rfl, hverify, rfl⟩

def SessionInv (m : Session Key) : Prop :=
  FlagClear m ∧ ∀ st ∈ m.starts, st.Sound

section Steps

variable {m : Session Key}

variable {zName : Bytes}

section

variable (hinv : SessionInv m)

include hinv

theorem getData_inv {k : Call Key} (hsigned : k.env.isSignedOnlyEnabled = true) (hop :
    Disciplined m (.getData k zName)) :
    SessionInv (m.step (.getData k zName)) := by
  rw [Session.step]
  cases hread : readData k m zName with
  | none => exact hinv
  | some out =>
    obtain ⟨s, r⟩ := out
    refine ⟨fun hzero => ?_, hinv.2⟩
    have hdepth : m.nEvalDepth = 0 := hzero
    rcases readData_cases hread with ⟨rfl, -⟩ | ⟨zData, rc, hdata, hverify, -⟩
    · exact hinv.1 hdepth
    · have hlast := (verifyData_flag hsigned hverify).1
      exact eq_false_iff.mpr fun hset => hop hdepth zData hdata (hlast.mp hset)

theorem eval_inv {k : Call Key} {sync : Bool} {zScript : Bytes} {trusted : Bool}
    {fault : StartFault} (hsigned : k.env.isSignedOnlyEnabled = true)
    (hop : Disciplined m (.eval k sync zName zScript trusted fault)) :
    SessionInv (m.step (.eval k sync zName zScript trusted fault)) := by
  rw [Session.step]
  cases heval : evalLocal k m sync zName zScript trusted none fault with
  | none => exact hinv
  | some m' =>
    refine ⟨evalLocal_flagClear hsigned (fun hzero => ?_) heval,
      evalLocal_sound hsigned hinv.2 (fun hzero => .inl (hinv.1 hzero)) heval⟩
    rw [hinv.1 hzero]
    exact hop hzero

theorem evalFile_inv {kRead kEval : Call Key} {fault : StartFault} (hsigned : HostOp.isSignedOnly
    (.evalFile kRead kEval zName fault)) (hop : Disciplined m (.evalFile kRead kEval zName fault)) :
    SessionInv (m.step (.evalFile kRead kEval zName fault)) := by
  rw [Session.step]
  cases hfile : evalFile kRead kEval m zName fault with
  | none => exact hinv
  | some m' =>
    obtain ⟨⟨s, r⟩, hread, hout⟩ := bind_eq_some_iff.mp hfile
    rcases readData_cases hread with ⟨rfl, e, rfl⟩ | ⟨zData, rc, hdata, hverify, rfl⟩
    · cases hout
      exact hinv
    obtain ⟨hlast, hall⟩ := verifyData_flag hsigned.1 hverify
    cases rc with
    | error e =>
      cases hout
      refine ⟨fun hzero => eq_false_iff.mpr fun hset => ?_, hinv.2⟩
      have hpass := (hop hzero).1 zData hdata (hlast.mp hset)
      cases hall.mp hpass
    | ok u =>
      have hset : s.isVerified = true := by
        obtain ⟨k, w, hw, hend⟩ := exists_last_of_stops
          ((verifyData_isSome_iff ..).mp (isSome_of_eq_some hverify))
        have hpass := hall.mpr rfl k w hw
        rw [Nat.zero_add] at hpass
        exact hlast.mpr ⟨k, w, ⟨hw, hend⟩, hpass⟩
      have heval : evalLocal kEval { m with policy := s } true zName
          (translateCrLfToLf zData) false (some zData) fault = some m' := by
        simpa [hsigned.1] using hout
      refine ⟨evalLocal_flagClear hsigned.2 (fun hzero => ?_) heval,
        evalLocal_sound (m := { m with policy := s }) hsigned.2 hinv.2
          (fun _ => .inr ⟨zData, rfl, rfl⟩) heval⟩
      rw [hset]
      exact (hop hzero).2 s zData hread

theorem finishEval_inv {cancelled : Bool} (hop : Disciplined m (.finish cancelled)) :
    SessionInv (m.step (.finish cancelled)) := by
  rw [Session.step, finishEval]
  cases hevals : m.evals with
  | nil => exact hinv
  | cons fr evals =>
    refine ⟨fun hzero => ?_, hinv.2⟩
    dsimp only at hzero ⊢
    unfold evalPost
    by_cases hdepth : m.nEvalDepth ≤ 1
    · rw [if_pos hdepth]
      rfl
    · -- only a restored depth can be zero here
      rw [if_neg hdepth]
      split_ifs at hzero with hcancel
      · obtain ⟨hsync, hcancelled⟩ := and_eq_true_iff.mp hcancel
        exact hop fr (by simp [hevals]) hsync hcancelled hzero (by omega)
      · omega

theorem unwindEvals_inv (hop : Disciplined m .unwind) : SessionInv (m.step .unwind) := by
  rw [Session.step, unwindEvals]
  cases hevals : m.evals.dropWhile fun fr => !fr.sync with
  | nil => exact hinv
  | cons fr evals =>
    refine ⟨fun hzero => ?_, hinv.2⟩
    exact hop fr (by simp [hevals]) hzero

theorem step_inv {op : HostOp Key} (hsigned : op.isSignedOnly)
    (hop : Disciplined m op) : SessionInv (m.step op) := by
  cases op with
  | getData k zName => exact getData_inv hinv hsigned hop
  | eval k sync zName zScript trusted fault => exact eval_inv hinv hsigned hop
  | evalFile kRead kEval zName fault => exact evalFile_inv hinv hsigned hop
  | finish cancelled => exact finishEval_inv hinv hop
  | unwind => exact unwindEvals_inv hinv hop

end

end Steps

/-- In a run of disciplined operations with signed-only enabled, every script that
starts at the top level is trusted by its caller or was verified for its own
evaluation. -/
theorem starts_sound_of_disciplined (paKeys : Option (Bytes → Option Key)) (m : Session Key)
    (hrun : ReachableBy Session.step (fun m op => op.isSignedOnly ∧ Disciplined m op)
      (Session.fresh paKeys) m) :
    ∀ st ∈ m.starts, st.Sound := by
  have hinv : SessionInv m := by
    refine hrun.invariant ⟨fun _ => rfl, by simp [Session.fresh]⟩ ?_
    exact fun m op hm hop => step_inv hm hop.1 hop.2
  exact hinv.2

/-- A platform that serves one script and its signature. -/
def signedLibrary : Env Unit where
  xGetData := fun zName =>
    if zName = ascii "lib.th8" then some (ascii "puts lib")
    else if zName = ascii "lib.th8.b64sig" then
      some (ascii "#\n#\n# lib.th8 -- 0123456789abcdef\n#\nAAEC\n")
    else none
  rsaKeyLoad := fun _ => none
  rsaKeyTokenHex := fun _ => ascii "0123456789abcdef"
  rsaKeyBitLen := fun _ => 1024
  rsaVerify := fun _ zData sig => zData = ascii "puts lib" && sig = [0, 1, 2]
  attrFlagsParse := fun _ => true
  isSignedOnlyEnabled := true
  forceHttpsTime := false
  httpsTimeQuery := none
  ntpQuery := none
  getTimeMs := none

def libraryCall : Call Unit := ⟨signedLibrary, Faults.none, fun _ => Faults.none, 1⟩

def libraryKeys : Option (Bytes → Option Unit) :=
  some fun zToken => if zToken = ascii "0123456789abcdef" then some () else none

def evalLibrary : HostOp Unit := .evalFile libraryCall libraryCall (ascii "lib.th8") .none

/-- Evaluating the signed library is disciplined, and its start is sound. -/
theorem starts_sound_evalLibrary :
    ((Session.fresh libraryKeys).step evalLibrary).starts =
      [⟨ascii "puts lib", 1, false, .verified, some (ascii "puts lib")⟩] ∧
    ∀ st ∈ ((Session.fresh libraryKeys).step evalLibrary).starts, st.Sound := by
  refine ⟨by decide, starts_sound_of_disciplined libraryKeys _
    (.step evalLibrary .init ⟨⟨rfl, rfl⟩, fun _ => ⟨?_, ?_⟩⟩)⟩
  · intro zData hdata _
    obtain rfl : ascii "puts lib" = zData := some.inj (Eq.trans (by decide) hdata)
    exact (allPass_of_nextVisit_none (by decide)).mpr (by decide)
  · intro s zData hread
    rcases readData_cases hread with ⟨-, e, he⟩ | ⟨zData', rc, hdata, -, hrc⟩
    · cases he
    obtain rfl : ascii "puts lib" = zData' := some.inj (Eq.trans (by decide) hdata)
    obtain rfl : ascii "puts lib" = zData := by
      cases rc with
      | error e => cases hrc
      | ok u => exact (Except.ok.inj hrc).symm
    have hann : checkedAnnotations signedLibrary (ascii "puts lib") =
        .ok Annotations.empty := by decide
    have htranslate : translateCrLfToLf (ascii "puts lib") = ascii "puts lib" := by
      decide
    have htime : clearsByTime signedLibrary (ascii "puts lib") = false := by
      decide
    simp [StartKeepsFlag, libraryCall, htranslate, hann, htime]

/-- After a signed script was only read, any other script is admitted. -/
theorem read_admits_other_script :
    ¬ ∀ m : Session Unit,
      ReachableBy Session.step (fun _ op => op.isSignedOnly) (Session.fresh libraryKeys) m →
      ∀ st ∈ m.starts, st.Sound := by
  intro h
  let read : HostOp Unit := .getData libraryCall (ascii "lib.th8")
  let other : HostOp Unit := .eval libraryCall true [] (ascii "exit") false .none
  have hrun : ReachableBy Session.step (fun _ op => HostOp.isSignedOnly op)
      (Session.fresh libraryKeys) (((Session.fresh libraryKeys).step read).step other) :=
    .step other (.step read .init rfl) rfl
  have hstarts : (((Session.fresh libraryKeys).step read).step other).starts =
      [⟨ascii "exit", 1, false, .verified, none⟩] := by
    decide
  have hsound := h _ hrun _ (by rw [hstarts]; exact List.mem_singleton_self _) rfl
  simp at hsound

end Th8.Policy
