import Th8.Variables.SecureInv

/-!
# Creation of variables, step by step

What `th8FindValue` with creation does to the variables is a chain of three kinds of
moves: namespaces are added, a fresh record is entered at a place that has none, and a
fresh record is entered under a new subscript of an array.  What each move keeps is kept
by every operation that creates.
-/

namespace Th8

open Support List

def VarState.HasNs (s : VarState) : VarPlace → Prop
  | .ns path _ => path ∈ s.namespaces
  | _ => True

inductive CreationStep (s : VarState) : VarState → Prop
  /-- `th8FindNamespace` adds the namespaces on a path. -/
  | namespaces (path : NsPath) (hdepth : path.length ≤ mxNsDepth) :
      CreationStep s { s with namespaces := path.inits ++ s.namespaces }
  /-- A record is allocated for a place that has none. -/
  | entry (place : VarPlace) (hns : s.HasNs place) (hnone : s.outer place = none) :
      CreationStep s (s.alloc.1.insert s.alloc.2 place)
  /-- A record is allocated for a new subscript of the record at a place, which is not a
  scalar. -/
  | element (place : VarPlace) (r : VarId) (zInner : Bytes) (hr : s.outer place = some r)
      (hscalar : (s.heap r).pHash = none → (s.heap r).zData = none)
      (hnone : ((s.heap r).pHash.getD []).lookup zInner = none) :
      CreationStep s (s.alloc.1.setHash r ((zInner, s.alloc.2) :: (s.heap r).pHash.getD []))

abbrev Creation : VarState → VarState → Prop := Relation.ReflTransGen CreationStep

variable {s : VarState} {r : VarId}

theorem setHash_self {t : Table} (h : (s.heap r).pHash = some t) : s.setHash r t = s := by
  have hsame : { s.heap r with pHash := some t } = s.heap r := by rw [← h]
  rw [VarState.setHash, hsame, Function.update_eq_self]

theorem setHash_of_ne (s : VarState) {a : VarId} (h : a ≠ r) (t : Table) :
    (s.setHash r t).heap a = s.heap a := Function.update_of_ne h _ _

theorem setHash_zData (s : VarState) (r a : VarId) (t : Table) :
    ((s.setHash r t).heap a).zData = (s.heap a).zData := by
  by_cases h : a = r
  · subst h
    simp [VarState.setHash]
  · rw [setHash_of_ne s h]

/-! ## Creation is a chain of moves -/

theorem outer_namespaces (s : VarState) (ns : List NsPath) (place : VarPlace) :
    { s with namespaces := ns }.outer place = s.outer place := by
  cases place <;> rfl

variable {s₁ : VarState} {place : VarPlace}

theorem ensureNs_creation (h : s.ensureNs place = some s₁) : Creation s s₁ ∧ s₁.HasNs place := by
  cases place with
  | frame up key =>
    cases h
    exact ⟨.refl, trivial⟩
  | global key =>
    cases h
    exact ⟨.refl, trivial⟩
  | ns path key =>
    unfold VarState.ensureNs at h
    dsimp only at h
    split_ifs at h with hmem hdeep
    · cases h
      exact ⟨.refl, contains_iff_mem.mp hmem⟩
    · cases h
      exact ⟨.single (.namespaces path (Nat.le_of_not_lt hdeep)),
        mem_append_left _ ((mem_inits _ _).mpr (prefix_refl _))⟩

variable {s' : VarState}

theorem createOuter_creation (h : s.createOuter place = some (s', r)) :
    Creation s s' ∧ s'.outer place = some r := by
  obtain ⟨s₁, hens, h⟩ := Option.map_eq_some_iff.mp h
  obtain ⟨hcreate, hns⟩ := ensureNs_creation hens
  cases hfound : s₁.outer place with
  | some a =>
    rw [hfound] at h
    cases h
    exact ⟨hcreate, hfound⟩
  | none =>
    rw [hfound] at h
    cases h
    exact ⟨hcreate.tail (.entry place hns hfound), outer_insert _ _ _⟩

theorem createElem_creation {e : VarId} {zInner : Bytes} (hr : s.outer place = some r)
    (hscalar : (s.heap r).pHash = none → (s.heap r).zData = none)
    (h : s.createElem r ((s.heap r).pHash.getD []) zInner = (s', e)) :
    Creation s s' ∧ s'.outer place = some r ∧
      ∃ t, (s'.heap r).pHash = some t ∧ t.lookup zInner = some e := by
  unfold VarState.createElem at h
  cases hfound : ((s.heap r).pHash.getD []).lookup zInner with
  | some a =>
    rw [hfound] at h
    cases h
    cases hhash : (s.heap r).pHash with
    | none => simp [hhash] at hfound
    | some t =>
      rw [Option.getD_some, setHash_self hhash]
      refine ⟨.refl, hr, t, hhash, ?_⟩
      simpa [hhash] using hfound
  | none =>
    rw [hfound] at h
    cases h
    refine ⟨.single (.element place r zInner hr hscalar hfound), ?_,
      (zInner, s.alloc.2) :: (s.heap r).pHash.getD [], ?_, ?_⟩
    · rw [setHash_outer, alloc_outer, hr]
    · simp [VarState.setHash]
    · exact lookup_cons_self

variable {zVar : Bytes}

theorem createValue_creation {up : ℕ} (h : createValue s up zVar = .ok (s', r)) :
    Creation s s' ∧ findValueAt s' up zVar = some r := by
  unfold createValue at h
  dsimp only at h
  cases houter : s.createOuter (varPlace up (analyzeVarName zVar)) with
  | none => simp [houter] at h
  | some p =>
    obtain ⟨s₁, a⟩ := p
    obtain ⟨hcreate, hplace⟩ := createOuter_creation houter
    rw [houter] at h
    cases hinner : (analyzeVarName zVar).zInner with
    | none =>
      rw [hinner] at h
      cases h
      exact ⟨hcreate, by rw [findValueAt, hplace, hinner]⟩
    | some zInner =>
      rw [hinner] at h
      have hfind : ∀ {t}, s'.outer (varPlace up (analyzeVarName zVar)) = some a →
          (s'.heap a).pHash = some t → t.lookup zInner = some r →
          findValueAt s' up zVar = some r := by
        intro t hplace' hhash' hlookup
        simp only [findValueAt, hplace', hinner, hhash', Option.bind_some, hlookup]
      cases hhash : (s₁.heap a).pHash with
      | some t =>
        have helem : s₁.createElem a ((s₁.heap a).pHash.getD []) zInner = (s', r) := by
          simpa [hhash] using h
        obtain ⟨helem, hplace', t', hhash', hlookup⟩ :=
          createElem_creation hplace (fun hnone => by simp [hhash] at hnone) helem
        exact ⟨hcreate.trans helem, hfind hplace' hhash' hlookup⟩
      | none =>
        simp only [hhash] at h
        split_ifs at h with hdata
        have hscalar : (s₁.heap a).zData = none := by simpa using hdata
        have helem : s₁.createElem a ((s₁.heap a).pHash.getD []) zInner = (s', r) := by
          simpa [hhash] using h
        obtain ⟨helem, hplace', t', hhash', hlookup⟩ :=
          createElem_creation hplace (fun _ => hscalar) helem
        exact ⟨hcreate.trans helem, hfind hplace' hhash' hlookup⟩

theorem Creation.invariant {P : VarState → Prop}
    (hstep : ∀ {s₁ s₂}, P s₁ → CreationStep s₁ s₂ → P s₂) (hs : P s) (h : Creation s s') :
    P s' := by
  induction h with
  | refl => exact hs
  | tail _ hlast ih => exact hstep ih hlast

theorem table_insert (s : VarState) (a : VarId) (place place' : VarPlace) :
    (s.insert a place).table place' = s.table place' ∨
      ((s.insert a place).table place' = (place.key, a) :: s.table place' ∧
        s.table place = s.table place') := by
  cases place with
  | frame up key =>
    simp only [VarState.insert]
    split_ifs with hup
    · cases place' with
      | frame up' key' =>
        simp only [VarState.table, VarState.frameAt, getElem?_set, VarPlace.key]
        by_cases heq : up = up'
        · subst heq
          simp [hup]
        · simp [heq]
      | global key' => exact .inl rfl
      | ns path key' => exact .inl rfl
    · have hnone : s.procFrames[up]? = none := by simpa using Nat.le_of_not_lt hup
      cases place' with
      | frame up' key' =>
        simp only [VarState.table, VarState.frameAt, VarPlace.key, hnone]
        cases s.procFrames[up']? <;> simp
      | global key' => exact .inr ⟨rfl, by simp [VarState.table, VarState.frameAt, hnone]⟩
      | ns path key' => exact .inl rfl
  | global key =>
    cases place' with
    | frame up' key' =>
      simp only [VarState.insert, VarState.table, VarState.frameAt, VarPlace.key]
      cases s.procFrames[up']? <;> simp
    | global key' => exact .inr ⟨rfl, rfl⟩
    | ns path key' => exact .inl rfl
  | ns path key =>
    cases place' with
    | frame up' key' => exact .inl rfl
    | global key' => exact .inl rfl
    | ns path' key' =>
      by_cases heq : path' = path
      · subst heq
        exact .inr ⟨by simp [VarState.insert, VarState.table, VarPlace.key], rfl⟩
      · exact .inl (by simp [VarState.insert, VarState.table, heq])

theorem outer_insert_of_key_ne (s : VarState) (a : VarId) {place' : VarPlace}
    (hkey : place'.key ≠ place.key) : (s.insert a place).outer place' = s.outer place' := by
  unfold VarState.outer
  rcases table_insert s a place place' with h | ⟨h, -⟩
  · rw [h]
  · rw [h, lookup_cons, beq_false_of_ne hkey]

theorem outer_insert_of_some {a : VarId} {place' : VarPlace} (hnone : s.outer place = none)
    (hr : s.outer place' = some r) :
    (s.insert a place).outer place' = some r := by
  by_cases hkey : place'.key = place.key
  · rcases table_insert s a place place' with h | ⟨-, htable⟩
    · rw [← hr, VarState.outer, h, VarState.outer]
    · rw [VarState.outer, htable, ← hkey] at hnone
      rw [VarState.outer, hnone] at hr
      cases hr
  · rw [outer_insert_of_key_ne s a hkey, hr]

/-! ## Writing -/

/-- Nothing but the data of records and of secure variables differs, and no array
became a scalar. -/
structure SameTables (s s' : VarState) : Prop where
  procFrames : s'.procFrames = s.procFrames
  globalFrame : s'.globalFrame = s.globalFrame
  namespaces : s'.namespaces = s.namespaces
  nsVars : s'.nsVars = s.nsVars
  nextVar : s'.nextVar = s.nextVar
  pHash : ∀ r, (s'.heap r).pHash = (s.heap r).pHash
  nRef : ∀ r, (s'.heap r).nRef = (s.heap r).nRef
  scalar : ∀ r, (s'.heap r).zData.isSome = true →
    (s.heap r).zData.isSome = true ∨ (s.heap r).pHash = none

theorem SameTables.refl (s : VarState) : SameTables s s :=
  ⟨rfl, rfl, rfl, rfl, rfl, fun _ => rfl, fun _ => rfl, fun _ h => .inl h⟩

theorem SameTables.trans {s₂ s₃ : VarState} (h : SameTables s₁ s₂) (h' : SameTables s₂ s₃) :
    SameTables s₁ s₃ where
  procFrames := h'.procFrames.trans h.procFrames
  globalFrame := h'.globalFrame.trans h.globalFrame
  namespaces := h'.namespaces.trans h.namespaces
  nsVars := h'.nsVars.trans h.nsVars
  nextVar := h'.nextVar.trans h.nextVar
  pHash r := (h'.pHash r).trans (h.pHash r)
  nRef r := (h'.nRef r).trans (h.nRef r)
  scalar r hr := by
    rcases h'.scalar r hr with hdata | hhash
    · exact h.scalar r hdata
    · exact .inr ((h.pHash r).symm.trans hhash)

theorem SameTables.update {v : Variable} (hframes : s'.procFrames = s.procFrames)
    (hglobal : s'.globalFrame = s.globalFrame) (hnamespaces : s'.namespaces = s.namespaces)
    (hns : s'.nsVars = s.nsVars) (hnext : s'.nextVar = s.nextVar)
    (hheap : s'.heap = Function.update s.heap r v) (hpHash : v.pHash = (s.heap r).pHash)
    (hnRef : v.nRef = (s.heap r).nRef)
    (hscalar : v.zData.isSome = true → (s.heap r).zData.isSome = true ∨ (s.heap r).pHash = none) :
    SameTables s s' := by
  refine ⟨hframes, hglobal, hnamespaces, hns, hnext, fun a => ?_, fun a => ?_, fun a => ?_⟩
  all_goals
    rw [hheap]
    by_cases ha : a = r
    · subst ha
      rw [Function.update_self]
      assumption
    · rw [Function.update_of_ne ha]
      try exact .inl

theorem SameTables.outer (h : SameTables s s') (place : VarPlace) :
    s'.outer place = s.outer place := by
  cases place <;>
    simp only [VarState.outer, VarState.table, VarState.frameAt, h.procFrames, h.globalFrame,
      h.nsVars]

theorem SameTables.findValueAt (h : SameTables s s') (up : ℕ) (zVar : Bytes) :
    findValueAt s' up zVar = findValueAt s up zVar := by
  simp only [Th8.findValueAt, h.outer, h.pHash]

theorem store_sameTables (hr : (s.heap r).pHash = none) (zVar : Bytes) (v : TString)
    (bBorrowed : Bool) (nAlloc : ℕ) (zWritten : Bytes) :
    SameTables s (s.store zVar r v bBorrowed nAlloc zWritten) := by
  unfold VarState.store
  split_ifs
  · exact .update rfl rfl rfl rfl rfl rfl rfl rfl fun _ => .inr hr
  · exact .update rfl rfl rfl rfl rfl rfl rfl rfl fun _ => .inr hr

def Written (s s' : VarState) : Prop := ∃ s₁, Creation s s₁ ∧ SameTables s₁ s'

theorem Written.refl (s : VarState) : Written s s := ⟨s, .refl, .refl s⟩

theorem Written.then {s₂ : VarState} (h : Written s s₁) (h' : SameTables s₁ s₂) : Written s s₂ := by
  obtain ⟨s₀, hcreate, hsame⟩ := h
  exact ⟨s₀, hcreate, hsame.trans h'⟩

theorem setVar_ok {v : TString} (h : setVar s zVar v = (s', .ok ())) :
    ∃ s₁ r, createValue s 0 zVar = .ok (s₁, r) ∧ (s₁.heap r).pHash = none ∧
      s' = s₁.store zVar r v false 0 v.bytes := by
  unfold setVar at h
  cases hcreate : createValue s 0 zVar with
  | error e => simp [hcreate] at h
  | ok p =>
    obtain ⟨s₁, r⟩ := p
    rw [hcreate] at h
    dsimp only at h
    split_ifs at h with harray
    · simp at h
    · simp only [Prod.mk.injEq, and_true] at h
      exact ⟨s₁, r, rfl, by simpa using harray, h.symm⟩

theorem setVar_written (s : VarState) (zVar : Bytes) (v : TString) :
    Written s (setVar s zVar v).1 := by
  unfold setVar
  cases hcreate : createValue s 0 zVar with
  | error e => exact .refl s
  | ok p =>
    obtain ⟨hchain, -⟩ := createValue_creation hcreate
    dsimp only
    split_ifs with harray
    · exact ⟨p.1, hchain, .refl _⟩
    · exact ⟨p.1, hchain, store_sameTables (by simpa using harray) _ _ _ _ _⟩

theorem appendInPlace_sameTables {app : TString} (h : appendInPlace s zVar app = some s') :
    SameTables s s' := by
  unfold appendInPlace at h
  cases hfind : findValue s zVar with
  | none => simp [hfind] at h
  | some r =>
    rw [hfind] at h
    dsimp only at h
    split_ifs at h
    cases h
    exact .update rfl rfl rfl rfl rfl rfl rfl rfl fun hdata => .inl (by simpa using hdata)

theorem appendVar_written (s : VarState) (zVar : Bytes) (args : List TString) :
    Written s (appendVar s zVar args) := by
  unfold appendVar
  dsimp only
  cases hplace : appendInPlace s zVar (concatArgs args) with
  | some s' => exact ⟨s, .refl, appendInPlace_sameTables hplace⟩
  | none =>
    cases hcreate : createValue s 0 zVar with
    | error e => exact .refl s
    | ok p =>
      obtain ⟨hchain, -⟩ := createValue_creation hcreate
      dsimp only
      split_ifs with harray
      · exact ⟨p.1, hchain, .refl _⟩
      · exact ⟨p.1, hchain, store_sameTables (by simpa using harray) _ _ _ _ _⟩

theorem secureVarCreate_written (s : VarState) (zVar v : Bytes) :
    Written s (secureVarCreate s zVar v).1 := by
  have hset := setVar_written s zVar (TString.plain [])
  unfold secureVarCreate
  split_ifs
  · exact .refl s
  · exact .refl s
  · exact .refl s
  · rcases hs : setVar s zVar (TString.plain []) with ⟨s₁, res⟩
    rw [hs] at hset
    cases res with
    | error e => exact hset
    | ok _ =>
      dsimp only
      cases findValue s₁ zVar with
      | none =>
        exact hset.then ⟨rfl, rfl, rfl, rfl, rfl, fun _ => rfl, fun _ => rfl, fun _ => .inl⟩
      | some r =>
        exact hset.then ⟨rfl, rfl, rfl, rfl, rfl, fun _ => rfl, fun _ => rfl, fun _ => .inl⟩

theorem linkVar_cases (s : VarState) (zLocal : Bytes) (iFrame : ℤ) (zRemote : Bytes) :
    (linkVar s zLocal iFrame zRemote).1 = s ∨
      ∃ s₁ r, Creation s s₁ ∧ findValueAt s₁ (framesUp s iFrame) zRemote = some r ∧
        ((linkVar s zLocal iFrame zRemote).1 = s₁ ∨ (s₁.frameAt 0).lookup zLocal = none ∧
          (linkVar s zLocal iFrame zRemote).1 =
            { s₁.insert r (.frame 0 zLocal) with
              heap := Function.update s₁.heap r
                { s₁.heap r with nRef := (s₁.heap r).nRef + 1 } }) := by
  unfold linkVar
  split_ifs
  · exact .inl rfl
  · cases hcreate : createValue s (framesUp s iFrame) zRemote with
    | error e => exact .inl rfl
    | ok p =>
      obtain ⟨hchain, hfind⟩ := createValue_creation hcreate
      refine .inr ⟨p.1, p.2, hchain, hfind, ?_⟩
      dsimp only
      split_ifs with hexists
      · exact .inl rfl
      · exact .inr ⟨Option.not_isSome_iff_eq_none.mp hexists, rfl⟩

/-- No namespace is too deep, and there are no variables outside the namespaces. -/
structure NamespacesSound (s : VarState) : Prop where
  depth : ∀ path ∈ s.namespaces, path.length ≤ mxNsDepth
  empty : ∀ path, path ∉ s.namespaces → s.nsVars path = []

namespace NamespacesSound

variable {s s' : VarState}

section

variable (h : NamespacesSound s)

include h

theorem congr (hns : s'.namespaces = s.namespaces)
    (hvars : s'.nsVars = s.nsVars) : NamespacesSound s' :=
  ⟨fun path hp => h.depth path (hns ▸ hp), fun path hp => by
    rw [hvars]
    exact h.empty path (hns ▸ hp)⟩

theorem insert (a : VarId) {place : VarPlace} (hns : s.HasNs place) :
    NamespacesSound (s.insert a place) := by
  cases place with
  | frame up key =>
    unfold VarState.insert
    dsimp only
    split_ifs
    · exact h.congr rfl rfl
    · exact h.congr rfl rfl
  | global key => exact h.congr rfl rfl
  | ns path key =>
    refine ⟨h.depth, fun path' hp => ?_⟩
    have hne : path' ≠ path := fun heq => hp (heq ▸ hns)
    simp only [VarState.insert, Function.update_of_ne hne]
    exact h.empty path' hp

theorem creationStep (hstep : CreationStep s s') : NamespacesSound s' := by
  cases hstep with
  | namespaces path hdepth =>
    refine ⟨fun path' hp => ?_, fun path' hp => h.empty path' fun hmem =>
      hp (mem_append_right _ hmem)⟩
    rcases mem_append.mp hp with hp | hp
    · exact ((mem_inits _ _).mp hp).length_le.trans hdepth
    · exact h.depth path' hp
  | entry place hns hnone =>
    have halloc : NamespacesSound s.alloc.1 := h.congr rfl rfl
    refine halloc.insert _ ?_
    cases place <;> exact hns
  | element place r zInner hr hscalar hnone => exact h.congr rfl rfl

theorem written (hw : Written s s') : NamespacesSound s' := by
  obtain ⟨s₁, hcreate, hsame⟩ := hw
  exact (hcreate.invariant creationStep h).congr hsame.namespaces hsame.nsVars

end

end NamespacesSound

theorem namespacesSound_init : NamespacesSound VarState.init := by
  refine ⟨fun path hp => ?_, fun _ _ => rfl⟩
  have hnil : path = [] := by simpa [VarState.init] using hp
  simp [hnil]

end Th8
