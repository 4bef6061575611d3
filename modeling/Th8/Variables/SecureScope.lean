import Th8.Variables.SecureInv

/-!
# Secure variables across frames, links and spellings

Secure metadata goes by the spelling of a name, storage by the record the name
leads to.  The two agree as long as a secure variable is local to a procedure,
has one name, and no other variable on the stack has that name.
-/

namespace Th8

open Support
open Function (update update_of_ne update_self)

/-! ## Writing -/

theorem SecureInv.rewrite {s : VarState} (h : SecureInv s) {r : VarId}
    (hplain : s.secured r = false) (hlt : r < s.nextVar) {v : Variable} {z : TString}
    {zWritten : Bytes} (hdata : v.zData = some z) (hbytes : z.bytes = zWritten)
    (hhash : v.pHash = (s.heap r).pHash) :
    SecureInv { s with
      heap := update s.heap r v
      written := update s.written r zWritten } := by
  have hne : ∀ {r'}, s.secured r' = true → r' ≠ r := by
    rintro r' hs rfl
    rw [hplain] at hs
    cases hs
  have houtside : ∀ {r'}, VarState.Outside { s with
      heap := update s.heap r v
      written := update s.written r zWritten } r' → s.Outside r' := by
    intro r' ho
    refine ho.of_pHash_eq (fun _ hx => hx) rfl fun a => ?_
    by_cases ha : a = r
    · subst ha
      simpa using hhash
    · simp [update_of_ne ha]
  exact
    { name_secure := h.name_secure
      value := fun hk hs => by
        simpa [update_of_ne (hne hs)] using h.value hk hs
      same_record := h.same_record
      same_name := h.same_name
      outside_plain := fun ho => h.outside_plain (houtside ho)
      spelled := h.spelled
      sentinel := fun hs => by
        simpa [update_of_ne (hne hs)] using h.sentinel hs
      plain := by
        intro r' hs
        by_cases hr : r' = r
        · subst hr
          simpa [Variable.bytes, hdata] using hbytes
        · simpa [update_of_ne hr] using h.plain hs
      borrowed := by
        intro r' hb
        by_cases hr : r' = r
        · subst hr
          simp [hdata]
        · simp only [update_of_ne hr] at hb ⊢
          exact h.borrowed hb
      fresh := by
        intro r' hr
        have hrr : r' ≠ r := (hlt.trans_le hr).ne'
        simpa [update_of_ne hrr] using h.fresh hr
      entry_lt := h.entry_lt
      outside_lt := fun ho => h.outside_lt (houtside ho) }

/-- A new value for a secure record, encrypted under its name. -/
theorem SecureInv.reencrypt {s : VarState} (h : SecureInv s) {zVar : Bytes} {r : VarId}
    (hentry : s.Entry zVar r) (hsecured : s.secured r = true) (zPlain : Bytes) (nAlloc : ℕ) :
    SecureInv { s with
      paSecure := update s.paSecure zVar (some zPlain)
      heap := update s.heap r { s.heap r with
        zData := some (TString.plain []), bBorrowed := false, nAlloc := nAlloc }
      written := update s.written r zPlain } := by
  have hknown : (s.paSecure zVar).isSome = true := (h.name_secure hentry).trans hsecured
  have hdom : ∀ k, (update s.paSecure zVar (some zPlain) k).isSome = (s.paSecure k).isSome := by
    intro k
    by_cases hk : k = zVar
    · rw [hk, update_self, hknown]
      rfl
    · rw [update_of_ne hk]
  have houtside : ∀ {r'}, VarState.Outside { s with
      paSecure := update s.paSecure zVar (some zPlain)
      heap := update s.heap r { s.heap r with
        zData := some (TString.plain []), bBorrowed := false, nAlloc := nAlloc }
      written := update s.written r zPlain } r' → s.Outside r' := by
    intro r' ho
    refine ho.of_pHash_eq (fun _ hx => hx) rfl fun a => ?_
    by_cases ha : a = r
    · subst ha
      simp
    · simp [update_of_ne ha]
  exact
    { name_secure := fun {k r'} hk => (hdom k).trans (h.name_secure hk)
      value := by
        intro k r' hk hs
        by_cases hkz : k = zVar
        · subst hkz
          have hr := h.same_record hk hentry hs
          simp [hr]
        · have hr : r' ≠ r := by
            rintro rfl
            exact hkz (h.same_name hk hentry hs)
          simpa [update_of_ne hkz, update_of_ne hr] using h.value hk hs
      same_record := h.same_record
      same_name := h.same_name
      outside_plain := fun ho => h.outside_plain (houtside ho)
      spelled := fun {k} hk => h.spelled ((hdom k).symm.trans hk)
      sentinel := by
        intro r' hs
        by_cases hr : r' = r
        · subst hr
          simp [Variable.bytes, TString.plain, (h.sentinel hs).2.2.1]
        · simpa [update_of_ne hr] using h.sentinel hs
      plain := by
        intro r' hs
        have hr : r' ≠ r := by
          rintro rfl
          rw [show s.secured r' = true from hsecured] at hs
          cases hs
        simpa [update_of_ne hr] using h.plain hs
      borrowed := by
        intro r' hb
        by_cases hr : r' = r
        · subst hr
          simp at hb
        · simp only [update_of_ne hr] at hb ⊢
          exact h.borrowed hb
      fresh := by
        intro r' hge
        have hr : r' ≠ r := ((h.entry_lt hentry).trans_le hge).ne'
        simpa [update_of_ne hr] using h.fresh hge
      entry_lt := h.entry_lt
      outside_lt := fun ho => h.outside_lt (houtside ho) }

theorem findValue_lt {s : VarState} (h : SecureInv s) {up : ℕ} {zVar : Bytes}
    {r : VarId} (hfind : findValueAt s up zVar = some r) : r < s.nextVar := by
  rcases findValueAt_cases hfind with hentry | ⟨houtside, -⟩
  · exact h.entry_lt hentry
  · exact h.outside_lt houtside

theorem SecureInv.store {s : VarState} (h : SecureInv s) {zVar : Bytes} {r : VarId}
    (hfind : findValue s zVar = some r) {v : TString} {zWritten : Bytes}
    (hbytes : v.bytes = zWritten) (bBorrowed : Bool) (nAlloc : ℕ) :
    SecureInv (s.store zVar r v bBorrowed nAlloc zWritten) := by
  unfold VarState.store
  have heq := h.isSecureVar_eq hfind
  split_ifs with hsecure
  · rw [hsecure] at heq
    subst hbytes
    exact h.reencrypt (h.entry_of_secured hfind heq.symm) heq.symm v.bytes 0
  · have hplain : s.secured r = false := by
      rw [← heq]
      simpa using hsecure
    exact h.rewrite hplain (findValue_lt h hfind) rfl hbytes rfl

theorem SecureInv.setVar {s : VarState} (h : SecureInv s) {zVar : Bytes}
    (hfresh : FreshNamePlain s 0 zVar) (v : TString) : SecureInv (setVar s zVar v).1 := by
  unfold Th8.setVar
  cases hc : Th8.createValue s 0 zVar with
  | error e => exact h
  | ok res =>
    obtain ⟨s₁, r⟩ := res
    obtain ⟨h₁, -, hfind, -⟩ := h.createValue hfresh hc
    dsimp only
    split_ifs
    · exact h₁
    · exact h₁.store hfind rfl false 0

theorem SecureInv.appendInPlace {s s' : VarState} (h : SecureInv s) {zVar : Bytes}
    {app : TString} (ha : appendInPlace s zVar app = some s') : SecureInv s' := by
  unfold Th8.appendInPlace at ha
  cases hfind : findValue s zVar with
  | none => simp [hfind] at ha
  | some r =>
    rw [hfind] at ha
    dsimp only at ha
    split_ifs at ha with hroom
    cases ha
    have hborrowed : (s.heap r).bBorrowed = true := by
      simp only [Bool.and_eq_true] at hroom
      exact hroom.1.1
    -- A secure record borrows no buffer.
    have hplain : s.secured r = false := by
      by_contra hs
      rw [(h.sentinel (Bool.of_not_eq_false hs)).2.2.2] at hborrowed
      cases hborrowed
    obtain ⟨z, hz⟩ := Option.isSome_iff_exists.mp (h.borrowed hborrowed)
    have hbytes : z.bytes = s.written r := by
      rw [← h.plain hplain, Variable.bytes, hz]
      rfl
    refine h.rewrite hplain (findValue_lt h hfind)
      (z := ⟨z.bytes ++ app.bytes, z.tags ||| app.tags⟩) ?_ ?_ rfl
    · simp [hz]
    · simp [hbytes]

theorem SecureInv.appendVar {s : VarState} (h : SecureInv s) {zVar : Bytes}
    (hfresh : FreshNamePlain s 0 zVar) (args : List TString) :
    SecureInv (appendVar s zVar args) := by
  unfold Th8.appendVar
  dsimp only
  cases hplace : Th8.appendInPlace s zVar (concatArgs args) with
  | some s' => exact h.appendInPlace hplace
  | none =>
    cases hc : Th8.createValue s 0 zVar with
    | error e => exact h
    | ok res =>
      obtain ⟨s₁, r⟩ := res
      obtain ⟨h₁, hext, hfind, hwas⟩ := h.createValue hfresh hc
      dsimp only
      split_ifs with hscalar
      · exact h₁
      · refine h₁.store hfind ?_ true _
        -- What the read returned is what was written before.
        rcases hwas with hwas | ⟨hnone, hempty, -⟩
        · have hhash : (s.heap r).pHash = none := by
            by_contra hsome
            exact hscalar (hext.array (Option.isSome_iff_ne_none.mpr hsome))
          obtain ⟨⟨res, hget, hbytes, -⟩, -⟩ := h.readsAsWritten zVar r hwas hhash
          simp [hget, hbytes]
        · have hget : getVar s zVar = .error (.message "no such variable: \"" zVar) := by
            simp [getVar, findValue, hnone]
          simp [hget, hempty, TString.plain]

/-! ## Linking and securing -/

theorem SecureInv.incRef {s : VarState} (h : SecureInv s) (r : VarId) (n : ℕ) :
    SecureInv { s with heap := update s.heap r { s.heap r with nRef := n } } := by
  have hhash : ∀ a, (update s.heap r { s.heap r with nRef := n } a).pHash = (s.heap a).pHash := by
    intro a
    by_cases ha : a = r
    · subst ha
      simp
    · simp [update_of_ne ha]
  refine h.mono rfl rfl rfl rfl ?_ (fun a ha => (hhash a).trans ha) (fun _ _ hk => hk)
    fun b ho => ho.of_pHash_eq (fun _ hx => hx) rfl hhash
  intro a
  by_cases ha : a = r
  · subst ha
    simp [Variable.SameData]
  · simp [update_of_ne ha, Variable.SameData.refl]

theorem SecureInv.insert_again {s : VarState} (h : SecureInv s) {k : Bytes} {r : VarId}
    (hentry : s.Entry k r) (hproc : 0 < s.procFrames.length) :
    SecureInv (s.insert r (.frame 0 k)) := by
  refine h.mono (by simp) (by simp) (by simp) (by simp) (fun a => ?_) (fun a ha => ?_) ?_ ?_
  · simp [Variable.SameData.refl]
  · simpa using ha
  · intro k' b hb
    rcases entry_insert hb with hb | ⟨rfl, hkey⟩
    · exact hb
    · cases hkey
      exact hentry
  · intro b ho
    refine ho.of_pHash_eq ?_ ?_ fun a => by simp
    · simp [VarState.insert, hproc]
    · simp [VarState.insert, hproc]

/-- A link to a secure record is inside a procedure and under the record's own name;
any other link is under a name that the metadata does not know. -/
structure LinkPlain (s : VarState) (zLocal : Bytes) (iFrame : ℤ) (zRemote : Bytes) : Prop where
  remote : FreshNamePlain s (framesUp s iFrame) zRemote
  secured : ∀ r, findValueAt s (framesUp s iFrame) zRemote = some r →
    s.secured r = true → s.procFrames ≠ [] ∧ s.Entry zLocal r
  plain : (∀ r, findValueAt s (framesUp s iFrame) zRemote = some r →
    s.secured r = false) → s.paSecure zLocal = none

theorem SecureInv.linkVar {s : VarState} (h : SecureInv s) {zLocal : Bytes} {iFrame : ℤ}
    {zRemote : Bytes} (hlink : LinkPlain s zLocal iFrame zRemote) :
    SecureInv (linkVar s zLocal iFrame zRemote).1 := by
  unfold Th8.linkVar
  split_ifs
  · exact h
  cases hc : Th8.createValue s (framesUp s iFrame) zRemote with
  | error e => exact h
  | ok res =>
    obtain ⟨s₁, r⟩ := res
    obtain ⟨h₁, hext, hfind, hwas⟩ := h.createValue hlink.remote hc
    dsimp only
    split_ifs
    · exact h₁
    have hinsert : SecureInv (s₁.insert r (.frame 0 zLocal)) := by
      cases hsecured : s.secured r with
      | true =>
        have hfound : findValueAt s (framesUp s iFrame) zRemote = some r := by
          rcases hwas with hwas | ⟨-, -, hplain⟩
          · exact hwas
          · rw [hplain] at hsecured
            cases hsecured
        obtain ⟨hproc, hentry⟩ := hlink.secured r hfound hsecured
        exact h₁.insert_again (hext.entry hentry) (by
          have hpos := List.length_pos_of_ne_nil hproc
          rwa [← hext.depth] at hpos)
      | false =>
        refine h₁.insert (by rw [hext.secured, hsecured]) (findValue_lt h₁ hfind) ?_
        rintro k hk
        cases hk
        rw [hext.paSecure]
        refine hlink.plain fun r' hr' => ?_
        rcases hwas with hwas | ⟨hnone, -⟩
        · rw [hwas] at hr'
          cases hr'
          exact hsecured
        · rw [hnone] at hr'
          cases hr'
    have hcount := hinsert.incRef r ((s₁.heap r).nRef + 1)
    rw [insert_heap] at hcount
    exact hcount

/-- Securing a record that has exactly one name, in the frames of procedures, and
whose name no other record has. -/
theorem SecureInv.secure {s s' : VarState} (h : SecureInv s) {zVar v : Bytes} {r : VarId}
    (hname : hasGlobalPrefix zVar = false ∧ chOpenParen ∉ zVar)
    (hentry : ∀ k b, s'.Entry k b → (k = zVar ∧ b = r) ∨ (k ≠ zVar ∧ b ≠ r ∧ s.Entry k b))
    (houtside : ∀ b, s'.Outside b → b ≠ r ∧ s.Outside b) (hheap : ∀ b, b ≠ r → s'.heap b = s.heap b)
    (hrecord : (s'.heap r).zData = some (TString.plain []) ∧ (s'.heap r).pHash = none ∧
      (s'.heap r).bBorrowed = false)
    (hsecure : s'.paSecure = update s.paSecure zVar (some v))
    (hsecured : s'.secured = update s.secured r true)
    (hwritten : s'.written = update s.written r v)
    (hnext : s.nextVar ≤ s'.nextVar) (hlt : r < s'.nextVar) : SecureInv s' := by
  have hother : ∀ {b}, s'.secured b = true → b ≠ r → s.secured b = true := by
    intro b hb hbr
    rwa [hsecured, update_of_ne hbr] at hb
  constructor
  case name_secure =>
    intro k b hk
    rw [hsecure, hsecured]
    rcases hentry k b hk with ⟨rfl, rfl⟩ | ⟨hkz, hbr, hk⟩
    · simp
    · simpa [update_of_ne hkz, update_of_ne hbr] using h.name_secure hk
  case value =>
    intro k b hk hs
    rw [hsecure, hwritten]
    rcases hentry k b hk with ⟨rfl, rfl⟩ | ⟨hkz, hbr, hk⟩
    · simp
    · simpa [update_of_ne hkz, update_of_ne hbr] using h.value hk (hother hs hbr)
  case same_record =>
    intro k b b' hk hk' hs
    rcases hentry k b hk with ⟨rfl, rfl⟩ | ⟨hkz, hbr, hk⟩
    · rcases hentry k b' hk' with ⟨-, rfl⟩ | ⟨hne, -, -⟩
      · rfl
      · exact absurd rfl hne
    · rcases hentry k b' hk' with ⟨heq, -⟩ | ⟨-, -, hk'⟩
      · exact absurd heq hkz
      · exact h.same_record hk hk' (hother hs hbr)
  case same_name =>
    intro k k' b hk hk' hs
    rcases hentry k b hk with ⟨rfl, rfl⟩ | ⟨hkz, hbr, hk⟩
    · rcases hentry k' b hk' with ⟨rfl, -⟩ | ⟨-, hne, -⟩
      · rfl
      · exact absurd rfl hne
    · rcases hentry k' b hk' with ⟨-, heq⟩ | ⟨-, -, hk'⟩
      · exact absurd heq hbr
      · exact h.same_name hk hk' (hother hs hbr)
  case outside_plain =>
    intro b ho
    obtain ⟨hbr, ho⟩ := houtside b ho
    rw [hsecured, update_of_ne hbr]
    exact h.outside_plain ho
  case spelled =>
    intro k hk
    by_cases hkz : k = zVar
    · rwa [hkz]
    · rw [hsecure, update_of_ne hkz] at hk
      exact h.spelled hk
  case sentinel =>
    intro b hs
    by_cases hbr : b = r
    · subst hbr
      obtain ⟨hdata, hhash, hborrowed⟩ := hrecord
      exact ⟨by rw [Variable.bytes, hdata]; rfl, by rw [hdata]; rfl, hhash, hborrowed⟩
    · rw [hheap b hbr]
      exact h.sentinel (hother hs hbr)
  case plain =>
    intro b hs
    have hbr : b ≠ r := by
      rintro rfl
      rw [hsecured, update_self] at hs
      cases hs
    rw [hheap b hbr, hwritten, update_of_ne hbr]
    rw [hsecured, update_of_ne hbr] at hs
    exact h.plain hs
  case borrowed =>
    intro b hb
    by_cases hbr : b = r
    · subst hbr
      rw [hrecord.2.2] at hb
      cases hb
    · rw [hheap b hbr] at hb ⊢
      exact h.borrowed hb
  case fresh =>
    intro b hge
    have hbr : b ≠ r := (hlt.trans_le hge).ne'
    rw [hsecured, hwritten, hheap b hbr, update_of_ne hbr, update_of_ne hbr]
    exact h.fresh (hnext.trans hge)
  case entry_lt =>
    intro k b hk
    rcases hentry k b hk with ⟨-, rfl⟩ | ⟨-, -, hk⟩
    · exact hlt
    · exact (h.entry_lt hk).trans_le hnext
  case outside_lt =>
    intro b ho
    exact (h.outside_lt (houtside b ho).2).trans_le hnext

/-- A secure variable is made inside a procedure under a plain name that leads to
nothing else: no other variable on the stack has the name, and a record that the
name already leads to is reached by no other name. -/
structure SecurePlain (s : VarState) (zVar : Bytes) : Prop where
  inProc : s.procFrames ≠ []
  spelled : hasGlobalPrefix zVar = false
  only_record : ∀ r, s.Entry zVar r → findValue s zVar = some r
  only_name : ∀ r, findValue s zVar = some r → (∀ k, s.Entry k r → k = zVar) ∧ ¬ s.Outside r

section Local

variable {s : VarState} {zVar : Bytes} (hhead : hasGlobalPrefix zVar = false)
  (hparen : chOpenParen ∉ zVar)
include hhead hparen

theorem findValue_local : findValue s zVar = s.outer (.frame 0 zVar) := by
  simp only [findValue, findValueAt, analyzeVarName_local hhead hparen, varPlace,
    Bool.not_false, if_true]
  cases s.outer (.frame 0 zVar) <;> rfl

theorem createValue_local :
    createValue s 0 zVar = .ok (match s.outer (.frame 0 zVar) with
      | some r => (s, r)
      | none => (s.alloc.1.insert s.nextVar (.frame 0 zVar), s.nextVar)) := by
  simp only [createValue, analyzeVarName_local hhead hparen, varPlace, Bool.not_false,
    if_true, VarState.createOuter, VarState.ensureNs, Option.map_some]
  cases s.outer (.frame 0 zVar) <;> rfl

theorem secureVarCreate_of_createValue {s' : VarState} {r : VarId} (v : Bytes)
    (hexists : existsVar s zVar = false) (hslots : s.nUsed < mxSecureVars)
    (hcreate : createValue s 0 zVar = .ok (s', r)) (hscalar : (s'.heap r).pHash = none)
    (hat : s'.outer (.frame 0 zVar) = some r) :
    ∃ n, (secureVarCreate s zVar v).1 = { s' with
      heap := update s'.heap r { s'.heap r with
        zData := some (TString.plain []), bBorrowed := false, nAlloc := 0 }
      paSecure := update s'.paSecure zVar (some v)
      nUsed := n
      secured := update s'.secured r true
      written := update s'.written r v } := by
  have hset : setVar s zVar (TString.plain []) =
      (s'.store zVar r (TString.plain []) false 0 [], .ok ()) := by
    simp [setVar, hcreate, hscalar, TString.plain]
  have hfind : findValue (s'.store zVar r (TString.plain []) false 0 []) zVar = some r := by
    rw [findValue_local hhead hparen, ← hat]
    unfold VarState.store
    split_ifs <;> rfl
  refine ⟨(s'.store zVar r (TString.plain []) false 0 []).nUsed + 1, ?_⟩
  unfold secureVarCreate
  rw [hexists, if_neg (by simp), if_neg hparen, if_neg (Nat.not_le_of_lt hslots), hset]
  dsimp only
  rw [hfind]
  dsimp only
  unfold VarState.store
  dsimp only
  split_ifs <;> simp [TString.plain]

end Local

theorem SecureInv.secureVarCreate {s : VarState} (h : SecureInv s) {zVar : Bytes}
    (hplain : SecurePlain s zVar) (v : Bytes) :
    SecureInv (secureVarCreate s zVar v).1 := by
  by_cases hexists : existsVar s zVar = true
  · simpa [Th8.secureVarCreate, hexists] using h
  by_cases hparen : chOpenParen ∈ zVar
  · simpa [Th8.secureVarCreate, hexists, hparen] using h
  by_cases hslots : mxSecureVars ≤ s.nUsed
  · simpa [Th8.secureVarCreate, hexists, hparen, hslots] using h
  have hcreate := createValue_local (s := s) hplain.spelled hparen
  have hlocal := findValue_local (s := s) hplain.spelled hparen
  have hproc := List.length_pos_of_ne_nil hplain.inProc
  rw [Bool.not_eq_true] at hexists
  cases houter : s.outer (.frame 0 zVar) with
  | some r =>
    rw [houter] at hcreate hlocal
    have hscalar : (s.heap r).pHash = none := by
      simp only [existsVar, hlocal, Bool.or_eq_false_iff] at hexists
      simpa using hexists.2
    obtain ⟨hname, hinside⟩ := hplain.only_name r hlocal
    obtain ⟨n, hstate⟩ := secureVarCreate_of_createValue hplain.spelled hparen v hexists
      (Nat.lt_of_not_le hslots) hcreate hscalar houter
    rw [hstate]
    refine h.secure ⟨hplain.spelled, hparen⟩ ?_ ?_ ?_ ?_ rfl rfl rfl le_rfl (findValue_lt h hlocal)
    · intro k b hk
      by_cases hkz : k = zVar
      · subst hkz
        have hb := hplain.only_record b hk
        rw [hlocal] at hb
        cases hb
        exact .inl ⟨rfl, rfl⟩
      · refine .inr ⟨hkz, ?_, hk⟩
        rintro rfl
        exact hkz (hname k hk)
    · intro b ho
      have ho' : s.Outside b := ho.of_pHash_eq (fun _ hx => hx) rfl fun a => by
        by_cases ha : a = r
        · subst ha
          simp
        · simp [update_of_ne ha]
      exact ⟨fun heq => hinside (heq ▸ ho'), ho'⟩
    · intro b hb
      simp [update_of_ne hb]
    · simp [hscalar]
  | none =>
    rw [houter] at hcreate hlocal
    have hscalar : ((s.alloc.1.insert s.nextVar (.frame 0 zVar)).heap s.nextVar).pHash =
        none := by simp [VarState.alloc, Variable.new]
    obtain ⟨n, hstate⟩ := secureVarCreate_of_createValue hplain.spelled hparen v hexists
      (Nat.lt_of_not_le hslots) hcreate hscalar (outer_insert _ _ _)
    rw [hstate]
    refine h.secure (v := v) (r := s.nextVar) ⟨hplain.spelled, hparen⟩ ?_ ?_ ?_ ?_ ?_ ?_ ?_ ?_ ?_
    · intro k b hk
      have hk' : (s.alloc.1.insert s.nextVar (.frame 0 zVar)).Entry k b := hk
      rcases entry_insert hk' with hold | ⟨rfl, hkey⟩
      · refine .inr ⟨?_, (h.entry_lt hold).ne, hold⟩
        rintro rfl
        rw [hplain.only_record b hold] at hlocal
        cases hlocal
      · cases hkey
        exact .inl ⟨rfl, rfl⟩
    · intro b ho
      have ho' : s.alloc.1.Outside b := ho.of_pHash_eq
        (by simp [VarState.insert, VarState.alloc, hproc])
        (by simp [VarState.insert, VarState.alloc, hproc]) fun a => by
          by_cases ha : a = s.nextVar
          · subst ha
            simp
          · simp [update_of_ne ha]
      have ho'' : s.Outside b := by
        rcases ho' with ho' | ho' | ⟨a, t, k, ht, hk⟩
        · exact .inl ho'
        · exact .inr (.inl ho')
        · refine .inr (.inr ⟨a, t, k, ?_, hk⟩)
          by_cases ha : a = s.nextVar
          · rw [ha] at ht
            simp [VarState.alloc, Variable.new] at ht
          · simpa [VarState.alloc, update_of_ne ha] using ht
      exact ⟨(h.outside_lt ho'').ne, ho''⟩
    · intro b hb
      simp [update_of_ne hb, VarState.alloc]
    · simp [VarState.alloc, Variable.new]
    · simp [VarState.alloc]
    · simp [VarState.alloc]
    · simp [VarState.alloc]
    · simp [VarState.alloc]
    · simp [VarState.alloc]

def Disciplined (s : VarState) : VarOp → Prop
  | .secureCreate zVar _ => SecurePlain s zVar
  | .set zVar _ | .append zVar _ => FreshNamePlain s 0 zVar
  | .link zLocal iFrame zRemote => LinkPlain s zLocal iFrame zRemote
  | .unset _ | .push | .pop => True

theorem SecureInv.varStep {s : VarState} (h : SecureInv s) {op : VarOp}
    (hop : Disciplined s op) : SecureInv (varStep s op) := by
  cases op with
  | secureCreate zVar v => exact h.secureVarCreate hop v
  | set zVar v => exact h.setVar hop v
  | append zVar args => exact h.appendVar hop args
  | link zLocal iFrame zRemote => exact h.linkVar hop
  | unset zVar => exact h.unsetVar zVar
  | push => exact h.pushFrame
  | pop => exact h.popFrame

end Th8
