import Th8.Variables.Creation

/-!
# The accessors that look names up by themselves

`Th8_UnsetVar`, `Th8_ExistsArrayVar` and `Th8_ListAppendArray` do not use
`th8FindValue`.  They take the outer part of a name for a key of the current frame or,
when the name starts with a pair of colons, of the global frame.  For a name that leads
into a namespace that is another entry.
-/

namespace Th8

open Support List

def elemName (zArr zInner : Bytes) : Bytes :=
  zArr ++ chOpenParen :: (zInner ++ [chCloseParen])

theorem splitSubscript_elemName {zOuter : Bytes} (hparen : chOpenParen ∉ zOuter)
    (zInner : Bytes) : splitSubscript (elemName zOuter zInner) = (zOuter, some zInner) := by
  have hlast : (elemName zOuter zInner).getLast? = some chCloseParen := by
    simp [elemName, getLast?_append, getLast?_cons]
  have hmem : chOpenParen ∈ elemName zOuter zInner := by simp [elemName]
  have hidx : (elemName zOuter zInner).idxOf chOpenParen = zOuter.length := by
    rw [elemName, idxOf_append_of_notMem hparen, idxOf_cons_self, Nat.add_zero]
  have hlength : (elemName zOuter zInner).length - zOuter.length - 2 = zInner.length := by
    simp [elemName]
  have htake : (elemName zOuter zInner).take zOuter.length = zOuter := by simp [elemName]
  have hdrop : (elemName zOuter zInner).drop (zOuter.length + 1) = zInner ++ [chCloseParen] := by
    rw [elemName, ← drop_drop, drop_left]
    rfl
  simp only [splitSubscript, hlast, hmem, and_self, if_true, hidx, hlength, htake, hdrop, take_left]

variable {zArr : Bytes}

theorem hasGlobalPrefix_elemName (hcolons : zArr ≠ [chColon, chColon]) (zInner : Bytes) :
    hasGlobalPrefix (elemName zArr zInner) = hasGlobalPrefix zArr := by
  have hne : chOpenParen ≠ chColon := by decide
  rcases zArr with _ | ⟨c, _ | ⟨d, _ | ⟨e, rest⟩⟩⟩
  · cases zInner <;> simp [elemName, hasGlobalPrefix, isAbsolute, hne]
  · simp [elemName, hasGlobalPrefix, isAbsolute, hne]
  · have hcd : ¬ (c = chColon ∧ d = chColon) := by
      rintro ⟨rfl, rfl⟩
      exact hcolons rfl
    simpa [elemName, hasGlobalPrefix, isAbsolute] using hcd
  · simp [elemName, hasGlobalPrefix, isAbsolute]

theorem analyzeVarName_elemName (hparen : chOpenParen ∉ zArr) (hcolons : zArr ≠ [chColon, chColon])
    (zInner : Bytes) :
    analyzeVarName (elemName zArr zInner) =
      { analyzeVarName zArr with zInner := some zInner } := by
  have hprefix := hasGlobalPrefix_elemName hcolons zInner
  by_cases hglobal : hasGlobalPrefix zArr = true
  · have hdrop : (elemName zArr zInner).drop 2 = elemName (zArr.drop 2) zInner := by
      have hlength : 2 ≤ zArr.length := by
        simp only [hasGlobalPrefix, Bool.and_eq_true, decide_eq_true_eq] at hglobal
        omega
      rw [elemName, drop_append_of_le_length hlength, elemName]
    have hnot : chOpenParen ∉ zArr.drop 2 := fun h => hparen (mem_of_mem_drop h)
    simp [analyzeVarName, hprefix, hglobal, hdrop, splitSubscript_elemName hnot,
      splitSubscript_of_notMem hnot]
  · simp [analyzeVarName, hprefix, hglobal, splitSubscript_elemName hparen,
      splitSubscript_of_notMem hparen]

/-- Where the accessors look that do not use `th8FindValue`. -/
def framePlace (name : VarName) : VarPlace :=
  if name.bGlobal then .global name.zOuter else .frame 0 name.zOuter

def frameEntry (s : VarState) (zVar : Bytes) : Option VarId :=
  s.outer (framePlace (analyzeVarName zVar))

def existsArrayVar (s : VarState) (zVar : Bytes) : Bool :=
  match frameEntry s zVar with
  | none => false
  | some r => (s.heap r).pHash.isSome

/-- `Th8_ListAppendArray`: the names it appends to the list. -/
def listAppendArray (s : VarState) (zArr : Bytes) : List Bytes :=
  match frameEntry s zArr with
  | none => []
  | some r => ((s.heap r).pHash.getD []).map Prod.fst

def inNamespace (zVar : Bytes) : Bool :=
  match varPlace 0 (analyzeVarName zVar) with
  | .ns path _ => decide (path.length ≤ mxNsDepth)
  | _ => false

theorem varPlace_eq_framePlace {name : VarName}
    (h : ∀ path key, varPlace 0 name ≠ .ns path key) : varPlace 0 name = framePlace name := by
  unfold varPlace framePlace at *
  by_cases hglobal : name.bGlobal = true
  · simp only [hglobal, Bool.not_true, Bool.false_eq_true, if_false, if_true] at h ⊢
    split
    · rename_i hsplit
      simp only [hsplit] at h
      exact absurd rfl (h _ _)
    · rfl
  · simp [hglobal]

variable {zVar : Bytes}

theorem inNamespace_cases (h : inNamespace zVar = false) :
    varPlace 0 (analyzeVarName zVar) = framePlace (analyzeVarName zVar) ∨
      ∃ path key, varPlace 0 (analyzeVarName zVar) = .ns path key ∧ mxNsDepth < path.length := by
  unfold inNamespace at h
  cases hplace : varPlace 0 (analyzeVarName zVar) with
  | ns path key =>
    rw [hplace] at h
    exact .inr ⟨path, key, rfl, by simpa using h⟩
  | frame up key =>
    rw [← hplace]
    exact .inl (varPlace_eq_framePlace (by simp [hplace]))
  | global key =>
    rw [← hplace]
    exact .inl (varPlace_eq_framePlace (by simp [hplace]))

/-- `zElem` names the element `zInner` of the variable that `zArr` names. -/
def IsElement (zArr zElem zInner : Bytes) : Prop :=
  (analyzeVarName zArr).zInner = none ∧
    analyzeVarName zElem = { analyzeVarName zArr with zInner := some zInner }

/-- A value that was set is read back and exists, a variable that was unset does not
exist, and an array whose element was set is reported with the elements that exist. -/
structure AccessorsAgree (s : VarState) (zVar : Bytes) : Prop where
  read : ∀ v s', setVar s zVar v = (s', .ok ()) →
    ∃ res, getVar s' zVar = .ok res ∧ res.value.bytes = v.bytes ∧
      (isSecureVar s zVar = false → res.value = v)
  exist : ∀ v s', setVar s zVar v = (s', .ok ()) → existsVar s' zVar = true
  gone : ∀ s', unsetVar s zVar = (s', .ok ()) → existsVar s' zVar = false
  array : ∀ zElem zInner v s', IsElement zVar zElem zInner → setVar s zElem v = (s', .ok ()) →
    existsArrayVar s' zVar = true ∧ zInner ∈ listAppendArray s' zVar ∧
      ∀ z k, IsElement zVar z k → (k ∈ listAppendArray s' zVar ↔ (findValue s' z).isSome)

section Set

variable {s s' : VarState} {zVar : Bytes} {v : TString}

section

variable (h : setVar s zVar v = (s', .ok ()))

include h

theorem findValue_setVar :
    ∃ r, findValue s' zVar = some r ∧ (s'.heap r).pHash = none ∧ (s'.heap r).zData.isSome = true ∧
      ((isSecureVar s zVar = true ∧ s'.paSecure zVar = some v.bytes) ∨
        (isSecureVar s zVar = false ∧ s'.paSecure zVar = none ∧ (s'.heap r).zData = some v)) := by
  obtain ⟨s₁, r, hcreate, hhash, rfl⟩ := setVar_ok h
  obtain ⟨hchain, hfind⟩ := createValue_creation hcreate
  have hsame := store_sameTables hhash zVar v false 0 v.bytes
  have hsecure : s₁.paSecure = s.paSecure :=
    hchain.invariant (P := fun t => t.paSecure = s.paSecure)
      (fun ht hstep => by cases hstep <;> simpa [VarState.setHash, VarState.alloc] using ht) rfl
  refine ⟨r, (hsame.findValueAt 0 zVar).trans hfind, (hsame.pHash r).trans hhash, ?_⟩
  have hiff : isSecureVar s₁ zVar = isSecureVar s zVar := by rw [isSecureVar, hsecure, isSecureVar]
  unfold VarState.store
  by_cases hsec : isSecureVar s₁ zVar = true
  · simp [hsec, ← hiff]
  · have hnone : s₁.paSecure zVar = none := by
      simpa [isSecureVar] using hsec
    simp [hsec, ← hiff, hnone]

theorem getVar_setVar :
    ∃ res, getVar s' zVar = .ok res ∧ res.value.bytes = v.bytes ∧
      (isSecureVar s zVar = false → res.value = v) := by
  obtain ⟨r, hfind, hhash, -, ⟨hsec, hplain⟩ | ⟨-, hnone, hdata⟩⟩ := findValue_setVar h
  · exact ⟨⟨⟨v.bytes, ⟨false, true⟩⟩, true⟩, by simp [getVar, hfind, hhash, hplain], rfl,
      by simp [hsec]⟩
  · exact ⟨⟨v, false⟩, by simp [getVar, hfind, hhash, hnone, hdata], rfl, fun _ => rfl⟩

theorem existsVar_setVar : existsVar s' zVar = true := by
  obtain ⟨r, hfind, -, hdata, -⟩ := findValue_setVar h
  simp [existsVar, hfind, hdata]

end

end Set

/-! ## Unsetting -/

theorem lookup_filter_ne (t : Table) (k : Bytes) :
    (t.filter fun p => p.1 != k).lookup k = none := by
  refine lookup_eq_none_iff.mpr fun p hp => ?_
  have hne : p.1 ≠ k := by simpa using (mem_filter.mp hp).2
  simpa using hne.symm

theorem unset_lookup (s : VarState) (name : VarName) :
    (if name.bGlobal || s.procFrames.isEmpty then s.globalFrame else s.frameAt 0).lookup
        name.zOuter = s.outer (framePlace name) := by
  unfold framePlace
  by_cases hglobal : name.bGlobal = true
  · simp [hglobal, VarState.outer, VarState.table, VarPlace.key]
  · cases hframes : s.procFrames <;>
      simp [hglobal, VarState.outer, VarState.table, VarPlace.key, VarState.frameAt, hframes]

variable {s s' : VarState}

theorem unlink_outer {name : VarName} {r : VarId}
    (hframes : s'.procFrames = (s.unlink (name.bGlobal || s.procFrames.isEmpty) name.zOuter r).1)
    (hglobal : s'.globalFrame = (s.unlink (name.bGlobal || s.procFrames.isEmpty) name.zOuter r).2) :
    s'.outer (framePlace name) = none := by
  unfold framePlace
  by_cases hbGlobal : name.bGlobal = true
  · simp only [hbGlobal, Bool.true_or, VarState.unlink, if_true] at hglobal
    simp only [hbGlobal, if_true, VarState.outer, VarState.table, VarPlace.key, hglobal]
    exact lookup_filter_ne _ _
  · simp only [hbGlobal, Bool.false_or, Bool.false_eq_true, if_false, VarState.outer,
      VarState.table, VarPlace.key, VarState.frameAt] at hframes hglobal ⊢
    cases hstack : s.procFrames with
    | nil =>
      simp only [hstack, VarState.unlink, isEmpty_nil, if_true, map_nil] at hframes hglobal
      simp only [hframes, getElem?_nil, Option.getD_none, hglobal]
      exact lookup_filter_ne _ _
    | cons f callers =>
      simp only [hstack, VarState.unlink, isEmpty_cons, Bool.false_eq_true, if_false,
        take_succ_cons, take_zero, map_cons, map_nil, cons_append, nil_append] at hframes
      simp only [hframes, getElem?_cons_zero, Option.getD_some]
      exact lookup_filter_ne _ _

theorem unsetVar_ok (h : unsetVar s zVar = (s', .ok ())) :
    ∃ r, frameEntry s zVar = some r ∧
      ((∃ zInner t e, (analyzeVarName zVar).zInner = some zInner ∧
          (s.heap r).pHash = some t ∧ t.lookup zInner = some e ∧
          s' = { s with heap := decRef s.heap e }.setHash r (t.filter fun p => p.1 != zInner)) ∨
        ((analyzeVarName zVar).zInner = none ∧
          s'.outer (framePlace (analyzeVarName zVar)) = none ∧ s'.nsVars = s.nsVars ∧
          ∃ n, s'.heap = Function.update s.heap r { s.heap r with nRef := n })) := by
  unfold unsetVar at h
  dsimp only at h
  rw [unset_lookup] at h
  unfold frameEntry
  cases hentry : s.outer (framePlace (analyzeVarName zVar)) with
  | none => simp [hentry] at h
  | some r =>
    rw [hentry] at h
    refine ⟨r, rfl, ?_⟩
    cases hinner : (analyzeVarName zVar).zInner with
    | none =>
      rw [hinner] at h
      simp only [Prod.mk.injEq, and_true] at h
      subst h
      exact .inr ⟨rfl, unlink_outer rfl rfl, rfl, _, rfl⟩
    | some zInner =>
      rw [hinner] at h
      dsimp only at h
      cases hhash : (s.heap r).pHash with
      | none => simp [hhash] at h
      | some t =>
        rw [hhash] at h
        dsimp only at h
        cases helem : t.lookup zInner with
        | none => simp [helem] at h
        | some e =>
          rw [helem] at h
          simp only [Prod.mk.injEq, and_true] at h
          exact .inl ⟨zInner, t, e, rfl, rfl, helem, h.symm⟩

theorem existsVar_eq_false_of_findValue (h : findValue s zVar = none) :
    existsVar s zVar = false := by
  rw [existsVar, h]

theorem existsVar_unsetVar
    (hplace : varPlace 0 (analyzeVarName zVar) = framePlace (analyzeVarName zVar))
    (h : unsetVar s zVar = (s', .ok ())) : existsVar s' zVar = false := by
  refine existsVar_eq_false_of_findValue ?_
  obtain ⟨r, hentry, ⟨zInner, t, e, hinner, -, -, rfl⟩ | ⟨hinner, hgone, -, -⟩⟩ := unsetVar_ok h
  · have houter : ({ s with heap := decRef s.heap e }.setHash r
        (t.filter fun p => p.1 != zInner)).outer (varPlace 0 (analyzeVarName zVar)) = some r := by
      rw [setHash_outer, hplace]
      exact hentry
    rw [findValue, findValueAt, houter, hinner]
    simp [VarState.setHash, lookup_filter_ne]
  · rw [findValue, findValueAt, hplace, hgone]

theorem listAppendArray_setVar {zElem zInner : Bytes} {v : TString}
    (hplace : varPlace 0 (analyzeVarName zArr) = framePlace (analyzeVarName zArr))
    (helem : IsElement zArr zElem zInner) (h : setVar s zElem v = (s', .ok ())) :
    existsArrayVar s' zArr = true ∧ zInner ∈ listAppendArray s' zArr ∧
      ∀ z k, IsElement zArr z k → (k ∈ listAppendArray s' zArr ↔ (findValue s' z).isSome) := by
  obtain ⟨r, hfind, -⟩ := findValue_setVar h
  have hname : ∀ {z k}, IsElement zArr z k →
      varPlace 0 (analyzeVarName z) = framePlace (analyzeVarName zArr) := by
    rintro z k ⟨-, hz⟩
    rw [← hplace, hz]
    rfl
  have hvalue : ∀ {z k}, IsElement zArr z k → findValue s' z =
      (s'.outer (framePlace (analyzeVarName zArr))).bind fun a =>
        (s'.heap a).pHash.bind fun t => t.lookup k := by
    rintro z k hz
    rw [findValue, findValueAt, hname hz, hz.2]
    cases s'.outer (framePlace (analyzeVarName zArr)) <;> rfl
  rw [hvalue helem] at hfind
  obtain ⟨a, hentry, hfind⟩ := Option.bind_eq_some_iff.mp hfind
  obtain ⟨t, hhash, hlookup⟩ := Option.bind_eq_some_iff.mp hfind
  have hlist : listAppendArray s' zArr = t.map Prod.fst := by
    simp [listAppendArray, frameEntry, hentry, hhash]
  refine ⟨by simp [existsArrayVar, frameEntry, hentry, hhash], ?_, fun z k hz => ?_⟩
  · rw [hlist]
    exact mem_map.mpr ⟨_, mem_of_lookup hlookup, rfl⟩
  · rw [hlist, hvalue hz, hentry, Option.bind_some, hhash, Option.bind_some]
    simp [mem_map, Option.isSome_iff_ne_none, lookup_eq_none_iff]

end Th8
