import Th8.Variables.Accessors

/-!
# For which names the accessors agree

In every reachable state the accessors agree on every name that does not lead into a
namespace.  A name that does leads two of them to different entries, and there is a run
after which it was unset and still exists.
-/

namespace Th8

open Support Option Nat

namespace NamespacesSound

variable {s : VarState}

section

variable (h : NamespacesSound s)

include h

theorem unsetVar (zVar : Bytes) : NamespacesSound (unsetVar s zVar).1 := by
  unfold Th8.unsetVar
  dsimp only
  split
  · exact h
  · split
    · exact h
    · split
      · exact h
      · exact h.congr rfl rfl
  · exact h.congr rfl rfl

theorem linkVar (zLocal : Bytes) (iFrame : ℤ) (zRemote : Bytes) :
    NamespacesSound (linkVar s zLocal iFrame zRemote).1 := by
  rcases linkVar_cases s zLocal iFrame zRemote with hsame | ⟨s₁, r, hcreate, -, hs₁⟩
  · rw [hsame]
    exact h
  · have hsound : NamespacesSound s₁ := hcreate.invariant creationStep h
    rcases hs₁ with hs₁ | ⟨-, hs₁⟩
    · rw [hs₁]
      exact hsound
    · have hns : s₁.HasNs (.frame 0 zLocal) := trivial
      rw [hs₁]
      exact (hsound.insert r hns).congr rfl rfl

theorem varStep (op : VarOp) : NamespacesSound (varStep s op) := by
  cases op with
  | secureCreate zVar v => exact h.written (secureVarCreate_written s zVar v)
  | set zVar v => exact h.written (setVar_written s zVar v)
  | append zVar args => exact h.written (appendVar_written s zVar args)
  | link zLocal iFrame zRemote => exact h.linkVar zLocal iFrame zRemote
  | unset zVar => exact h.unsetVar zVar
  | push => exact h.congr rfl rfl
  | pop =>
    simp only [Th8.varStep, popFrame]
    split
    · exact h
    · exact h.congr rfl rfl

end

end NamespacesSound

variable {s : VarState}

theorem namespacesSound_of_reachable (hs : Reachable varStep VarState.init s) : NamespacesSound s :=
  hs.invariant namespacesSound_init fun _ op h _ => h.varStep op

variable {zVar : Bytes} {path : NsPath}

theorem NamespacesSound.findValue_eq_none (h : NamespacesSound s) {key : Bytes}
    (hplace : varPlace 0 (analyzeVarName zVar) = .ns path key) (hdeep : mxNsDepth < path.length) :
    findValue s zVar = none := by
  have hvars : s.nsVars path = [] :=
    h.empty path fun hmem => absurd (h.depth path hmem) (Nat.not_le_of_lt hdeep)
  have houter : s.outer (.ns path key) = none := by
    simp [VarState.outer, VarState.table, VarPlace.key, hvars]
  rw [findValue, findValueAt, hplace, houter]

theorem accessorsAgree_of_reachable (hs : Reachable varStep VarState.init s)
    (hname : inNamespace zVar = false) :
    AccessorsAgree s zVar := by
  have hsound := namespacesSound_of_reachable hs
  refine ⟨fun v s' h => getVar_setVar h, fun v s' h => existsVar_setVar h, fun s' h => ?_,
    fun zElem zInner v s' helem h => ?_⟩
  · rcases inNamespace_cases hname with hplace | ⟨path, key, hplace, hdeep⟩
    · exact existsVar_unsetVar hplace h
    · have hsound' := hsound.unsetVar zVar
      rw [h] at hsound'
      exact existsVar_eq_false_of_findValue (hsound'.findValue_eq_none hplace hdeep)
  · rcases inNamespace_cases hname with hplace | ⟨path, key, hplace, hdeep⟩
    · exact listAppendArray_setVar hplace helem h
    · have hsound' := hsound.written (setVar_written s zElem v)
      rw [h] at hsound'
      have hplace' : varPlace 0 (analyzeVarName zElem) = .ns path key := by
        rw [← hplace, helem.2]
        rfl
      obtain ⟨r, hfind, -⟩ := findValue_setVar h
      rw [hsound'.findValue_eq_none hplace' hdeep] at hfind
      cases hfind

/-! ## Setting a variable that does not exist -/

/-- What a set of a variable that does not exist leaves behind: the variable's entry
leads to a fresh record, and nothing that was there has changed. -/
structure SetFresh (s s' : VarState) (place : VarPlace) : Prop where
  entry : s'.outer place = some s.nextVar
  next : s.nextVar < s'.nextVar
  keeps : ∀ {place' r}, s.outer place' = some r → s'.outer place' = some r
  others : ∀ {place'}, place'.key ≠ place.key → s'.outer place' = s.outer place'
  heap : ∀ r < s.nextVar, s'.heap r = s.heap r
  depth : s'.procFrames.length = s.procFrames.length
  nsVars : (∀ path key, place ≠ .ns path key) → s'.nsVars = s.nsVars

namespace SetFresh

variable {s : VarState} {place : VarPlace}

theorem mono {s' s'' : VarState} (h : SetFresh s s' place)
    (houter : ∀ place', s''.outer place' = s'.outer place') (hnext : s'.nextVar ≤ s''.nextVar)
    (hheap : ∀ r < s.nextVar, s''.heap r = s'.heap r)
    (hdepth : s''.procFrames.length = s'.procFrames.length) (hvars : s''.nsVars = s'.nsVars) :
    SetFresh s s'' place where
  entry := (houter place).trans h.entry
  next := h.next.trans_le hnext
  keeps hr := (houter _).trans (h.keeps hr)
  others hkey := (houter _).trans (h.others hkey)
  heap r hr := (hheap r hr).trans (h.heap r hr)
  depth := hdepth.trans h.depth
  nsVars hplace := hvars.trans (h.nsVars hplace)

theorem insert (ns : List NsPath) (hnone : s.outer place = none) :
    SetFresh s ({ s with namespaces := ns }.alloc.1.insert s.nextVar place) place := by
  have houter : ∀ place', { s with namespaces := ns }.alloc.1.outer place' =
      s.outer place' := fun place' => (alloc_outer _ _).trans (outer_namespaces s ns place')
  refine ⟨outer_insert _ _ _, ?_, fun {place' r} hr => ?_, fun {place'} hkey => ?_,
    fun r hr => ?_, ?_, fun hplace => ?_⟩
  · rw [insert_nextVar]
    exact lt_succ_self _
  · exact outer_insert_of_some ((houter place).trans hnone) ((houter place').trans hr)
  · exact (outer_insert_of_key_ne _ _ hkey).trans (houter place')
  · rw [insert_heap]
    exact Function.update_of_ne (Nat.ne_of_lt hr) _ _
  · cases place with
    | frame up key =>
      unfold VarState.insert
      dsimp only
      split_ifs
      · exact List.length_set
      · rfl
    | global key => rfl
    | ns path key => rfl
  · cases place with
    | frame up key =>
      unfold VarState.insert
      dsimp only
      split_ifs <;> rfl
    | global key => rfl
    | ns path key => exact absurd rfl (hplace path key)

theorem store {s' : VarState} (h : SetFresh s s' place) (zVar : Bytes) {r : VarId}
    (hr : s.nextVar ≤ r) (hhash : (s'.heap r).pHash = none) (v : TString) :
    SetFresh s (s'.store zVar r v false 0 v.bytes) place := by
  have hsame := store_sameTables hhash zVar v false 0 v.bytes
  refine h.mono hsame.outer hsame.nextVar.ge (fun a ha => ?_) (by rw [hsame.procFrames])
    hsame.nsVars
  have hne : a ≠ r := Nat.ne_of_lt (ha.trans_le hr)
  unfold VarState.store
  split_ifs
  · exact Function.update_of_ne hne _ _
  · exact Function.update_of_ne hne _ _

end SetFresh

theorem setVar_fresh {s₁ : VarState}
    (hens : s.ensureNs (varPlace 0 (analyzeVarName zVar)) = some s₁)
    (hnone : s.outer (varPlace 0 (analyzeVarName zVar)) = none) (v : TString) :
    ∃ s', setVar s zVar v = (s', .ok ()) ∧ SetFresh s s' (varPlace 0 (analyzeVarName zVar)) := by
  obtain ⟨ns, rfl⟩ := ensureNs_eq hens
  generalize hplace : varPlace 0 (analyzeVarName zVar) = place at hens hnone ⊢
  let s₂ := { s with namespaces := ns }.alloc.1.insert s.nextVar place
  have hfresh : SetFresh s s₂ place := .insert ns hnone
  have hnew : s₂.heap s.nextVar = Variable.new := by
    rw [insert_heap]
    exact Function.update_self _ _ _
  have houter : s.createOuter place = some (s₂, s.nextVar) := by
    simp only [VarState.createOuter, hens, map_some, outer_namespaces, hnone]
    rfl
  cases hinner : (analyzeVarName zVar).zInner with
  | none =>
    have hcreate : createValue s 0 zVar = .ok (s₂, s.nextVar) := by
      simp only [createValue, hplace, houter, hinner]
    have hhash : (s₂.heap s.nextVar).pHash = none := by rw [hnew]; rfl
    refine ⟨_, ?_, hfresh.store zVar (le_refl _) hhash v⟩
    simp [setVar, hcreate, hhash]
  | some zInner =>
    let s₃ := s₂.alloc.1.setHash s.nextVar [(zInner, s₂.nextVar)]
    have hne : s₂.nextVar ≠ s.nextVar := ne_of_gt hfresh.next
    have hcreate : createValue s 0 zVar = .ok (s₃, s₂.nextVar) := by
      simp only [createValue, hplace, houter, hinner, hnew]
      rfl
    have hfresh₃ : SetFresh s s₃ place := by
      refine hfresh.mono (fun place' => (setHash_outer _ _ _ _).trans (alloc_outer _ _))
        (le_succ _) (fun r hr => ?_) rfl rfl
      have hr₂ : r ≠ s₂.nextVar := Nat.ne_of_lt (hr.trans hfresh.next)
      simp [s₃, VarState.setHash, VarState.alloc, Nat.ne_of_lt hr, hr₂]
    have hhash : (s₃.heap s₂.nextVar).pHash = none := by
      simp [s₃, VarState.setHash, VarState.alloc, hne, Variable.new]
    refine ⟨_, ?_, hfresh₃.store zVar hfresh.next.le hhash v⟩
    simp [setVar, hcreate, hhash]

/-! ## Names that lead into a namespace -/

variable {r : VarId}

theorem unsetVar_of_frameEntry (hentry : frameEntry s zVar = some r)
    (helem : ∀ zInner, (analyzeVarName zVar).zInner = some zInner → ∃ t e, (s.heap r).pHash = some t
      ∧ t.lookup zInner = some e) :
    ∃ s', unsetVar s zVar = (s', .ok ()) := by
  unfold frameEntry at hentry
  unfold unsetVar
  dsimp only
  rw [unset_lookup, hentry]
  cases hinner : (analyzeVarName zVar).zInner with
  | none => exact ⟨_, rfl⟩
  | some zInner =>
    obtain ⟨t, e, hhash, hlookup⟩ := helem zInner hinner
    simp only [hhash, hlookup]
    exact ⟨_, rfl⟩

theorem existsVar_of_kept {s' : VarState} (hfind : findValue s zVar = some r)
    (hdata : (s.heap r).zData.isSome = true) (houter : s'.outer (varPlace 0 (analyzeVarName zVar)) =
      s.outer (varPlace 0 (analyzeVarName zVar))) (hhash : ∀ a, s.outer (varPlace 0 (analyzeVarName
      zVar)) = some a → (s'.heap a).pHash = (s.heap a).pHash)
    (hzData : (s'.heap r).zData = (s.heap r).zData) : existsVar s' zVar = true := by
  have hfind' : findValue s' zVar = some r := by
    rw [← hfind]
    unfold findValue findValueAt
    simp only [houter]
    cases hentry : s.outer (varPlace 0 (analyzeVarName zVar)) with
    | none => rfl
    | some a =>
      cases (analyzeVarName zVar).zInner with
      | none => rfl
      | some zInner => simp only [hhash a hentry]
  simp [existsVar, hfind', hzData, hdata]

/-- A name with the subscript `zInner`, if there is one, of a local variable. -/
def localName : Option Bytes → Bytes
  | none => ascii "y"
  | some zInner => elemName (ascii "y") zInner

theorem analyzeVarName_localName (zInner : Option Bytes) :
    analyzeVarName (localName zInner) = ⟨false, ascii "y", zInner⟩ := by
  have hname : analyzeVarName (ascii "y") = ⟨false, ascii "y", none⟩ := by decide
  cases zInner with
  | none => exact hname
  | some k =>
    rw [localName, analyzeVarName_elemName (by decide) (by decide), hname]

theorem linkVar_global {zLocal zRemote : Bytes} (hframes : s.procFrames = [])
    (hremote : analyzeVarName zRemote = ⟨false, zRemote, none⟩)
    (hr : s.outer (.frame 0 zRemote) = some r) (hlocal : s.outer (.frame 0 zLocal) = none) :
    (linkVar s zLocal 0 zRemote).1 =
      { s.insert r (.frame 0 zLocal) with
        heap := Function.update s.heap r { s.heap r with nRef := (s.heap r).nRef + 1 } } := by
  have hup : framesUp s 0 = 0 := by simp [framesUp, VarState.frames, hframes]
  have hcreate : createValue s 0 zRemote = .ok (s, r) := by
    simp only [createValue, hremote, varPlace, Bool.not_false, if_true, VarState.createOuter,
      VarState.ensureNs, map_some, hr]
  have hnone : (s.frameAt 0).lookup zLocal = none := hlocal
  simp only [linkVar, hup, not_lt_zero, if_false, hcreate, hnone, isSome_none, Bool.false_eq_true]

theorem exists_linked {zOuter : Bytes} (hne : zOuter ≠ ascii "y") (zInner : Option Bytes) :
    ∃ s, Reachable varStep VarState.init s ∧ s.outer (.global zOuter) = some 0 ∧
      s.nsVars = (fun _ => []) ∧ 0 < s.nextVar ∧
      ∀ k, zInner = some k → ∃ t e, (s.heap 0).pHash = some t ∧ t.lookup k = some e := by
  have hplace : varPlace 0 (analyzeVarName (localName zInner)) = .frame 0 (ascii "y") := by
    rw [analyzeVarName_localName]
    rfl
  have hens : VarState.init.ensureNs (varPlace 0 (analyzeVarName (localName zInner))) =
      some VarState.init := by
    rw [hplace]
    rfl
  obtain ⟨s₁, hset, hfresh⟩ := setVar_fresh hens (by rw [hplace]; rfl) (TString.plain [])
  rw [hplace] at hfresh
  have hentry : s₁.outer (.frame 0 (ascii "y")) = some 0 := hfresh.entry
  have hframes : s₁.procFrames = [] := List.eq_nil_of_length_eq_zero hfresh.depth
  have hkey : (VarPlace.frame 0 zOuter).key ≠ (VarPlace.frame 0 (ascii "y")).key := hne
  have hnone : s₁.outer (.frame 0 zOuter) = none := hfresh.others hkey
  have hlink := linkVar_global hframes (by decide) hentry hnone
  have hstep₁ : varStep VarState.init (.set (localName zInner) (TString.plain [])) = s₁ := by
    simp only [varStep, hset]
  have hrun : Reachable varStep VarState.init (linkVar s₁ zOuter 0 (ascii "y")).1 := by
    have hreach : Reachable varStep VarState.init s₁ := by
      rw [← hstep₁]
      exact .step _ .init trivial
    exact .step (.link zOuter 0 (ascii "y")) hreach trivial
  refine ⟨_, hrun, ?_, ?_, ?_, fun k hk => ?_⟩
  · rw [hlink]
    simp [VarState.insert, hframes, VarState.outer, VarState.table, VarPlace.key]
  · rw [hlink]
    simp only [VarState.insert, hframes, List.length_nil, lt_irrefl, if_false]
    exact hfresh.nsVars fun _ _ h => by cases h
  · rw [hlink]
    have hnext : 0 < s₁.nextVar := hfresh.next
    simpa using hnext
  · obtain ⟨e, hfind, -⟩ := findValue_setVar hset
    subst hk
    have hname := analyzeVarName_localName (some k)
    simp only [findValue, findValueAt, hname, varPlace, Bool.not_false, if_true, hentry,
      bind_eq_some_iff] at hfind
    obtain ⟨t, hhash, hlookup⟩ := hfind
    refine ⟨t, e, ?_, hlookup⟩
    rw [hlink]
    simpa using hhash

theorem ensureNs_of_depth (s : VarState) (hdepth : path.length ≤ mxNsDepth) (key : Bytes) :
    ∃ s₁, s.ensureNs (.ns path key) = some s₁ := by
  unfold VarState.ensureNs
  dsimp only
  split_ifs with hmem hdeep
  · exact ⟨_, rfl⟩
  · exact absurd hdepth (Nat.not_le_of_lt hdeep)
  · exact ⟨_, rfl⟩

theorem not_accessorsAgree_of_linked {key : Bytes} {a : VarId}
    (hplace : varPlace 0 (analyzeVarName zVar) = .ns path key) (hentry : frameEntry s zVar = some r)
    (ha : s.outer (.ns path key) = some a) (hne : a ≠ r) (helem : ∀ zInner, (analyzeVarName
      zVar).zInner = some zInner → ∃ t e, (s.heap r).pHash = some t ∧ t.lookup zInner = some e)
    {x : VarId} (hfind : findValue s zVar = some x) (hdata : (s.heap x).zData.isSome = true) :
    ¬ AccessorsAgree s zVar := by
  intro hagree
  obtain ⟨s', hunset⟩ := unsetVar_of_frameEntry hentry helem
  have hgone := hagree.gone s' hunset
  have hstays : existsVar s' zVar = true := by
    obtain ⟨r', hentry', hcases⟩ := unsetVar_ok hunset
    have hr : r' = r := some.inj (hentry'.symm.trans hentry)
    subst hr
    rcases hcases with ⟨zInner, t, e, -, -, -, rfl⟩ | ⟨-, -, hvars, n, hheap⟩
    · refine existsVar_of_kept hfind hdata (setHash_outer _ _ _ _) (fun b hb => ?_) ?_
      · rw [hplace, ha] at hb
        rw [← some.inj hb, setHash_of_ne _ hne]
        exact (decRef_sameData s.heap e a).2
      · rw [setHash_zData]
        exact (decRef_sameData s.heap e x).1.1
    · refine existsVar_of_kept hfind hdata ?_ (fun b hb => ?_) ?_
      · rw [hplace]
        simp only [VarState.outer, VarState.table, hvars]
      · rw [hplace, ha] at hb
        rw [← some.inj hb, hheap, Function.update_of_ne hne]
      · by_cases hx : x = r'
        · subst hx
          rw [hheap, Function.update_self]
        · rw [hheap, Function.update_of_ne hx]
  rw [hgone] at hstays
  cases hstays

theorem exists_disagreement (hname : inNamespace zVar = true) :
    ∃ s, Reachable varStep VarState.init s ∧ ¬ AccessorsAgree s zVar := by
  unfold inNamespace at hname
  cases hplace : varPlace 0 (analyzeVarName zVar) with
  | frame up key => simp [hplace] at hname
  | global key => simp [hplace] at hname
  | ns path key =>
    have hdepth : path.length ≤ mxNsDepth := by simpa [hplace] using hname
    have hglobal : (analyzeVarName zVar).bGlobal = true := by
      by_contra hlocal
      rw [varPlace, Bool.eq_false_of_not_eq_true hlocal] at hplace
      cases hplace
    have hne : (analyzeVarName zVar).zOuter ≠ ascii "y" := by
      intro heq
      have hsplit : splitQualName (ascii "y") = (none, ascii "y") := by decide
      simp [varPlace, hglobal, heq, hsplit] at hplace
    obtain ⟨s, hreach, hentry, hvars, hnext, helem⟩ :=
      exists_linked hne (analyzeVarName zVar).zInner
    obtain ⟨s₁, hens⟩ := ensureNs_of_depth s hdepth key
    have hnone : s.outer (.ns path key) = none := by
      simp [VarState.outer, VarState.table, hvars]
    rw [← hplace] at hens hnone
    obtain ⟨s', hset, hfresh⟩ := setVar_fresh hens hnone (TString.plain [])
    rw [hplace] at hfresh
    have hentry' : frameEntry s' zVar = some 0 := by
      rw [frameEntry, framePlace, if_pos hglobal]
      exact hfresh.keeps hentry
    obtain ⟨x, hfind, -, hdata, -⟩ := findValue_setVar hset
    have hreach' : Reachable varStep VarState.init s' := by
      have hstep : varStep s (.set zVar (TString.plain [])) = s' := by
        simp only [varStep, hset]
      rw [← hstep]
      exact .step _ hreach trivial
    refine ⟨s', hreach', not_accessorsAgree_of_linked hplace hentry' hfresh.entry
      (ne_of_gt hnext) ?_ hfind hdata⟩
    rw [hfresh.heap 0 hnext]
    exact helem

end Th8
