import Th8.Variables.Accessors

/-!
# What leads to a variable

A variable is a record at a place of the global frame or of a namespace, with the records
of its elements.  An accessor that is called with a name that leads to none of them, and
that creates none, leaves what the variable reads as it was.
-/

namespace Th8

open List Nat

def atGlobal (s : VarState) : VarState := { s with procFrames := [] }

def globalPlace (z : Bytes) : VarPlace :=
  match varPlace 0 (analyzeVarName z) with
  | .frame _ key => .global key
  | place => place

def Means (z zName : Bytes) : Prop := zName = z ∨ ∃ k, IsElement z zName k

/-- All names of the variable and of its elements read the same at global level. -/
structure SameValue (z : Bytes) (s s' : VarState) : Prop where
  read : ∀ zName, Means z zName → getVar (atGlobal s') zName = getVar (atGlobal s) zName
  exist : ∀ zName, Means z zName → existsVar (atGlobal s') zName = existsVar (atGlobal s) zName

def VarState.slot (s : VarState) : VarPlace → VarPlace
  | .frame up key => if up < s.procFrames.length then .frame up key else .global key
  | place => place

def IsCell (s : VarState) (z : Bytes) (c : VarId) : Prop :=
  ∃ a, s.outer (globalPlace z) = some a ∧
    (c = a ∨ ∃ t k, (s.heap a).pHash = some t ∧ t.lookup k = some c)

/-- A name, seen `up` frames above the innermost one, leads to the variable or to one of
its elements: by its place, by its record, or by the record of its element. -/
def LeadsTo (s : VarState) (z : Bytes) (up : ℕ) (zVar : Bytes) : Prop :=
  s.slot (varPlace up (analyzeVarName zVar)) = globalPlace z ∨
    (∃ r, s.outer (varPlace up (analyzeVarName zVar)) = some r ∧ IsCell s z r) ∨
    ∃ r, findValueAt s up zVar = some r ∧ IsCell s z r

/-- What `Th8_UnsetVar` finds under the name is the variable, or the array whose element
it removes is an element of it. -/
def UnsetHits (s : VarState) (z zVar : Bytes) : Prop :=
  ∃ r, frameEntry s zVar = some r ∧
    (s.outer (globalPlace z) = some r ∨ ((analyzeVarName zVar).zInner ≠ none ∧ IsCell s z r))

/-! ## Places -/

theorem means_varPlace {z zName : Bytes} (h : Means z zName) (up : ℕ) :
    varPlace up (analyzeVarName zName) = varPlace up (analyzeVarName z) := by
  rcases h with rfl | ⟨k, -, helem⟩
  · rfl
  · rw [helem]
    rfl

theorem atGlobal_outer (s : VarState) (z : Bytes) :
    (atGlobal s).outer (varPlace 0 (analyzeVarName z)) = s.outer (globalPlace z) := by
  unfold globalPlace
  cases varPlace 0 (analyzeVarName z) <;> rfl

theorem globalPlace_ne_frame (z : Bytes) (up : ℕ) (key : Bytes) :
    globalPlace z ≠ .frame up key := by
  unfold globalPlace
  intro h
  cases hplace : varPlace 0 (analyzeVarName z) with
  | frame up' key' =>
    rw [hplace] at h
    cases h
  | global key' =>
    rw [hplace] at h
    cases h
  | ns path key' =>
    rw [hplace] at h
    cases h

theorem slot_globalPlace (s : VarState) (z : Bytes) : s.slot (globalPlace z) = globalPlace z := by
  have hne := globalPlace_ne_frame z
  cases hplace : globalPlace z with
  | frame up key => exact absurd hplace (hne up key)
  | global key => rfl
  | ns path key => rfl

theorem outer_slot (s : VarState) (place : VarPlace) : s.outer (s.slot place) = s.outer place := by
  cases place with
  | frame up key =>
    unfold VarState.slot
    dsimp only
    split_ifs with hup
    · rfl
    · have hnone : s.procFrames[up]? = none := by simpa using Nat.le_of_not_lt hup
      simp [VarState.outer, VarState.table, VarState.frameAt, VarPlace.key, hnone]
  | global key => rfl
  | ns path key => rfl

theorem outer_insert_of_slot_ne (s : VarState) (a : VarId) {place place' : VarPlace}
    (h : s.slot place ≠ s.slot place') :
    (s.insert a place).outer place' = s.outer place' := by
  by_cases hkey : place'.key = place.key
  · suffices htable : (s.insert a place).table place' = s.table place' by
      rw [VarState.outer, htable, VarState.outer]
    cases place with
    | frame up key =>
      unfold VarState.insert
      dsimp only
      split_ifs with hup
      · cases place' with
        | frame up' key' =>
          have hne : up ≠ up' := by
            rintro rfl
            exact h (by simpa [VarState.slot, VarPlace.key, hup] using hkey.symm)
          simp [VarState.table, VarState.frameAt, hne]
        | global key' => rfl
        | ns path key' => rfl
      · cases place' with
        | frame up' key' =>
          by_cases hup' : up' < s.procFrames.length
          · simp [VarState.table, VarState.frameAt, hup']
          · refine absurd ?_ h
            simpa [VarState.slot, hup, hup', VarPlace.key] using hkey.symm
        | global key' =>
          refine absurd ?_ h
          simpa [VarState.slot, hup, VarPlace.key] using hkey.symm
        | ns path key' => rfl
    | global key =>
      cases place' with
      | frame up' key' =>
        by_cases hup' : up' < s.procFrames.length
        · simp [VarState.insert, VarState.table, VarState.frameAt, hup']
        · refine absurd ?_ h
          simpa [VarState.slot, hup', VarPlace.key] using hkey.symm
      | global key' =>
        refine absurd ?_ h
        simpa [VarState.slot, VarPlace.key] using hkey.symm
      | ns path key' => rfl
    | ns path key =>
      cases place' with
      | frame up' key' => rfl
      | global key' => rfl
      | ns path' key' =>
        have hne : path' ≠ path := by
          rintro rfl
          exact h (by simpa [VarState.slot, VarPlace.key] using hkey.symm)
        simp [VarState.insert, VarState.table, hne]
  · exact outer_insert_of_key_ne s a hkey

/-- The place, the records and the secure values of the variable are as they were. -/
structure Kept (z : Bytes) (s s' : VarState) : Prop where
  outer : s'.outer (globalPlace z) = s.outer (globalPlace z)
  cell : ∀ c, IsCell s z c →
    (s'.heap c).zData = (s.heap c).zData ∧ (s'.heap c).pHash = (s.heap c).pHash
  secure : ∀ zName, Means z zName → s'.paSecure zName = s.paSecure zName

namespace Kept

variable {z : Bytes} {s s₁ s₂ s' : VarState}

theorem refl (z : Bytes) (s : VarState) : Kept z s s :=
  ⟨rfl, fun _ _ => ⟨rfl, rfl⟩, fun _ _ => rfl⟩

theorem isCell_iff (h : Kept z s s') (c : VarId) : IsCell s' z c ↔ IsCell s z c := by
  unfold IsCell
  rw [h.outer]
  refine exists_congr fun a => and_congr_right fun ha => or_congr_right ?_
  rw [(h.cell a ⟨a, ha, .inl rfl⟩).2]

theorem trans (h : Kept z s s₁) (h' : Kept z s₁ s₂) : Kept z s s₂ where
  outer := h'.outer.trans h.outer
  cell c hc := by
    obtain ⟨hdata, hhash⟩ := h.cell c hc
    obtain ⟨hdata', hhash'⟩ := h'.cell c ((h.isCell_iff c).mpr hc)
    exact ⟨hdata'.trans hdata, hhash'.trans hhash⟩
  secure zName hname := (h'.secure zName hname).trans (h.secure zName hname)

theorem findValue_eq (h : Kept z s s') {zName : Bytes} (hname : Means z zName) :
    findValue (atGlobal s') zName = findValue (atGlobal s) zName := by
  unfold findValue findValueAt
  simp only [means_varPlace hname, atGlobal_outer, h.outer]
  cases ha : s.outer (globalPlace z) with
  | none => rfl
  | some a =>
    have hhash : ((atGlobal s').heap a).pHash = ((atGlobal s).heap a).pHash :=
      (h.cell a ⟨a, ha, .inl rfl⟩).2
    cases (analyzeVarName zName).zInner with
    | none => rfl
    | some k => simp only [hhash]

theorem isCell_of_findValue {zName : Bytes} (hname : Means z zName) {r : VarId}
    (h : findValue (atGlobal s) zName = some r) : IsCell s z r := by
  unfold findValue findValueAt at h
  simp only [means_varPlace hname, atGlobal_outer] at h
  cases ha : s.outer (globalPlace z) with
  | none => simp [ha] at h
  | some a =>
    rw [ha] at h
    cases hinner : (analyzeVarName zName).zInner with
    | none =>
      rw [hinner] at h
      exact ⟨a, ha, .inl (Option.some.inj h).symm⟩
    | some k =>
      rw [hinner] at h
      obtain ⟨t, hhash, hlookup⟩ := Option.bind_eq_some_iff.mp h
      exact ⟨a, ha, .inr ⟨t, k, hhash, hlookup⟩⟩

theorem sameValue (h : Kept z s s') : SameValue z s s' := by
  refine ⟨fun zName hname => ?_, fun zName hname => ?_⟩
  · unfold getVar
    rw [h.findValue_eq hname]
    cases hfind : findValue (atGlobal s) zName with
    | none => rfl
    | some r =>
      obtain ⟨hdata, hhash⟩ := h.cell r (isCell_of_findValue hname hfind)
      have hsecure := h.secure zName hname
      change ((atGlobal s').heap r).zData = ((atGlobal s).heap r).zData at hdata
      change ((atGlobal s').heap r).pHash = ((atGlobal s).heap r).pHash at hhash
      change (atGlobal s').paSecure zName = (atGlobal s).paSecure zName at hsecure
      dsimp only
      rw [hdata, hhash, hsecure]
  · unfold existsVar
    rw [h.findValue_eq hname]
    cases hfind : findValue (atGlobal s) zName with
    | none => rfl
    | some r =>
      obtain ⟨hdata, hhash⟩ := h.cell r (isCell_of_findValue hname hfind)
      simp only [atGlobal, hdata, hhash]

theorem of_heap (houter : s'.outer (globalPlace z) = s.outer (globalPlace z))
    (hheap : ∀ c, IsCell s z c → (s'.heap c).zData = (s.heap c).zData ∧
      (s'.heap c).pHash = (s.heap c).pHash)
    (hsecure : s'.paSecure = s.paSecure) : Kept z s s' :=
  ⟨houter, hheap, fun _ _ => by rw [hsecure]⟩

end Kept

def CellsOld (s : VarState) (z : Bytes) : Prop := ∀ c, IsCell s z c → c < s.nextVar

theorem Kept.cellsOld {z : Bytes} {s s' : VarState} (h : Kept z s s') (hold : CellsOld s z)
    (hnext : s.nextVar ≤ s'.nextVar) : CellsOld s' z :=
  fun c hc => (hold c ((h.isCell_iff c).mp hc)).trans_le hnext

/-! ## Creation -/

section Creation

variable {z : Bytes} {s s' : VarState}

theorem kept_entry (hold : CellsOld s z) {place : VarPlace} (hslot : s.slot place ≠ globalPlace z) :
    Kept z s (s.alloc.1.insert s.alloc.2 place) := by
  refine .of_heap ?_ (fun c hc => ?_) (insert_paSecure _ _ _)
  · have hne : s.alloc.1.slot place ≠ s.alloc.1.slot (globalPlace z) := by
      rw [slot_globalPlace]
      exact hslot
    rw [outer_insert_of_slot_ne _ _ hne, alloc_outer]
  · have hne : c ≠ s.nextVar := Nat.ne_of_lt (hold c hc)
    simp [VarState.alloc, hne]

variable {r : VarId}

theorem kept_setHash (hr : ¬ IsCell s z r) (t : Table) : Kept z s (s.setHash r t) := by
  refine .of_heap (setHash_outer _ _ _ _) (fun c hc => ?_) rfl
  have hne : c ≠ r := fun heq => hr (heq ▸ hc)
  rw [setHash_of_ne s hne]
  exact ⟨rfl, rfl⟩

section

variable (hold : CellsOld s z)

include hold

theorem kept_alloc : Kept z s s.alloc.1 := by
  refine .of_heap (alloc_outer _ _) (fun c hc => ?_) rfl
  have hne : c ≠ s.nextVar := Nat.ne_of_lt (hold c hc)
  simp [VarState.alloc, hne]

theorem not_isCell_fresh : ¬ IsCell s z s.nextVar :=
  fun hc => lt_irrefl _ (hold _ hc)

theorem createElem_kept {e : VarId} {t : Table} {zInner : Bytes}
    (hr : ¬ IsCell s z r) (h : s.createElem r t zInner = (s', e)) :
    Kept z s s' ∧ s.nextVar ≤ s'.nextVar ∧ s'.procFrames.length = s.procFrames.length ∧
      (t.lookup zInner = some e ∨ ¬ IsCell s z e) := by
  unfold VarState.createElem at h
  cases hfound : t.lookup zInner with
  | some a =>
    rw [hfound] at h
    cases h
    exact ⟨kept_setHash hr t, le_refl _, rfl, .inl rfl⟩
  | none =>
    rw [hfound] at h
    cases h
    have halloc := kept_alloc hold
    have hr' : ¬ IsCell s.alloc.1 z r := fun hc => hr ((halloc.isCell_iff r).mp hc)
    exact ⟨halloc.trans (kept_setHash hr' _), le_succ _, rfl, .inr (not_isCell_fresh hold)⟩

theorem createOuter_kept {place : VarPlace}
    (hslot : s.outer place = none → s.slot place ≠ globalPlace z)
    (h : s.createOuter place = some (s', r)) :
    Kept z s s' ∧ s.nextVar ≤ s'.nextVar ∧ s'.procFrames.length = s.procFrames.length ∧
      ((s.outer place = some r ∧ s'.heap r = s.heap r) ∨
        (s.outer place = none ∧ ¬ IsCell s z r ∧ (s'.heap r).pHash = none)) := by
  obtain ⟨ns, ⟨hfound, rfl⟩ | ⟨hfound, rfl, rfl⟩⟩ := createOuter_cases h
  all_goals
    have hns : Kept z s { s with namespaces := ns } :=
      .of_heap (outer_namespaces s ns _) (fun _ _ => ⟨rfl, rfl⟩) rfl
  · exact ⟨hns, le_refl _, rfl, .inl ⟨hfound, rfl⟩⟩
  · have hslot' : { s with namespaces := ns }.slot place ≠ globalPlace z := by
      have hne := hslot hfound
      cases place <;> exact hne
    have hentry := kept_entry (hns.cellsOld hold (le_refl _)) hslot'
    refine ⟨hns.trans hentry, ?_, ?_, .inr ⟨hfound, not_isCell_fresh hold, ?_⟩⟩
    · rw [insert_nextVar]
      exact le_succ _
    · exact (insert_extends _ _ _).depth
    · simp [VarState.alloc, Variable.new]

/-- `th8FindValue` with creation, for a name that does not lead to the variable when
there is something to create. -/
theorem createValue_kept {up : ℕ} {zVar : Bytes}
    (hnot : findValueAt s up zVar = none → ¬ LeadsTo s z up zVar)
    (h : createValue s up zVar = .ok (s', r)) :
    Kept z s s' ∧ s.nextVar ≤ s'.nextVar ∧ s'.procFrames.length = s.procFrames.length ∧
      (¬ LeadsTo s z up zVar → ¬ IsCell s z r) := by
  unfold createValue at h
  dsimp only at h
  cases houter : s.createOuter (varPlace up (analyzeVarName zVar)) with
  | none => simp [houter] at h
  | some p =>
    obtain ⟨s₁, a⟩ := p
    rw [houter] at h
    have hnone : s.outer (varPlace up (analyzeVarName zVar)) = none →
        findValueAt s up zVar = none := by
      intro hplace
      rw [findValueAt, hplace]
    have hslot : s.outer (varPlace up (analyzeVarName zVar)) = none →
        s.slot (varPlace up (analyzeVarName zVar)) ≠ globalPlace z :=
      fun hplace heq => hnot (hnone hplace) (.inl heq)
    obtain ⟨hkept, hnext, hframes, hcases⟩ := createOuter_kept hold hslot houter
    have hcell : ¬ LeadsTo s z up zVar → ¬ IsCell s z a := by
      intro hleads hc
      rcases hcases with ⟨hplace, -⟩ | ⟨-, hfresh, -⟩
      · exact hleads (.inr (.inl ⟨a, hplace, hc⟩))
      · exact hfresh hc
    have helem : ∀ {zInner t}, (analyzeVarName zVar).zInner = some zInner →
        ((s₁.heap a).pHash = some t ∨ (s₁.heap a).pHash = none ∧ t = []) →
        s₁.createElem a t zInner = (s', r) →
        Kept z s s' ∧ s.nextVar ≤ s'.nextVar ∧ s'.procFrames.length = s.procFrames.length ∧
          (¬ LeadsTo s z up zVar → ¬ IsCell s z r) := by
      intro zInner t hinner ht h
      have hfind : findValueAt s up zVar = t.lookup zInner := by
        rcases hcases with ⟨hplace, hheap⟩ | ⟨hplace, -, hfresh⟩
        · rw [hheap] at ht
          rw [findValueAt, hplace, hinner]
          rcases ht with ht | ⟨ht, rfl⟩ <;> simp [ht]
        · rcases ht with ht | ⟨-, rfl⟩
          · rw [hfresh] at ht
            cases ht
          · rw [hnone hplace, lookup_nil]
      cases hlookup : t.lookup zInner with
      | some e =>
        -- The element is there, and nothing is created.
        have hhash : (s₁.heap a).pHash = some t := by
          rcases ht with ht | ⟨-, rfl⟩
          · exact ht
          · simp at hlookup
        unfold VarState.createElem at h
        rw [hlookup, setHash_self hhash] at h
        cases h
        refine ⟨hkept, hnext, hframes, fun hleads hc => hleads (.inr (.inr ⟨r, ?_, hc⟩))⟩
        rw [hfind, hlookup]
      | none =>
        have hleads : ¬ LeadsTo s z up zVar := hnot (by rw [hfind, hlookup])
        have hcell₁ : ¬ IsCell s₁ z a := fun hc => hcell hleads ((hkept.isCell_iff a).mp hc)
        obtain ⟨hkept', hnext', hframes', hnew⟩ :=
          createElem_kept (hkept.cellsOld hold hnext) hcell₁ h
        refine ⟨hkept.trans hkept', hnext.trans hnext', hframes'.trans hframes, fun _ hc => ?_⟩
        rcases hnew with hsome | hnew
        · rw [hlookup] at hsome
          cases hsome
        · exact hnew ((hkept.isCell_iff r).mpr hc)
    cases hinner : (analyzeVarName zVar).zInner with
    | none =>
      rw [hinner] at h
      cases h
      exact ⟨hkept, hnext, hframes, hcell⟩
    | some zInner =>
      rw [hinner] at h
      cases hhash : (s₁.heap a).pHash with
      | some t =>
        simp only [hhash, Except.ok.injEq] at h
        exact helem hinner (.inl hhash) h
      | none =>
        simp only [hhash] at h
        split_ifs at h with hdata
        simp only [Except.ok.injEq] at h
        exact helem hinner (.inr ⟨hhash, rfl⟩) h

end

end Creation

/-! ## The accessors that write -/

section Write

variable {z : Bytes} {s : VarState}

variable {zVar : Bytes} {r : VarId}

theorem createValue_paSecure {s' : VarState} {up : ℕ} (h : createValue s up zVar = .ok (s', r)) :
    s'.paSecure = s.paSecure := by
  obtain ⟨hchain, -⟩ := createValue_creation h
  refine hchain.invariant (P := fun t => t.paSecure = s.paSecure) (fun ht hstep => ?_) rfl
  cases hstep with
  | namespaces path hdepth => exact ht
  | entry place hns hnone =>
    rw [insert_paSecure]
    exact ht
  | element place a zInner ha hscalar hnone => exact ht

theorem store_kept (hr : ¬ IsCell s z r) (hsecure : isSecureVar s zVar = true → ¬ Means z zVar)
    (v : TString) (bBorrowed : Bool) (nAlloc : ℕ) (zWritten : Bytes) :
    Kept z s (s.store zVar r v bBorrowed nAlloc zWritten) := by
  have hne : ∀ c, IsCell s z c → c ≠ r := fun c hc heq => hr (heq ▸ hc)
  unfold VarState.store
  split_ifs with hsec
  · refine ⟨?_, fun c hc => ?_, fun zName hname => ?_⟩
    · cases globalPlace z <;> rfl
    · simp [hne c hc]
    · have hneq : zName ≠ zVar := fun heq => hsecure hsec (heq ▸ hname)
      simp [hneq]
  · refine .of_heap ?_ (fun c hc => ?_) rfl
    · cases globalPlace z <;> rfl
    · simp [hne c hc]

theorem createValue_store_kept (hold : CellsOld s z) (hnot : ¬ LeadsTo s z 0 zVar)
    (hsecure : isSecureVar s zVar = true → ¬ Means z zVar) {s₁ : VarState}
    (hcreate : createValue s 0 zVar = .ok (s₁, r)) (hscalar : (s₁.heap r).pHash = none)
    (v : TString) (bBorrowed : Bool) (nAlloc : ℕ) (zWritten : Bytes) :
    Kept z s (s₁.store zVar r v bBorrowed nAlloc zWritten) ∧
      s.nextVar ≤ (s₁.store zVar r v bBorrowed nAlloc zWritten).nextVar := by
  obtain ⟨hkept, hnext, -, hcell⟩ := createValue_kept hold (fun _ => hnot) hcreate
  have hr : ¬ IsCell s₁ z r := fun hc => hcell hnot ((hkept.isCell_iff r).mp hc)
  have hsecure₁ : isSecureVar s₁ zVar = true → ¬ Means z zVar := by
    rw [isSecureVar, createValue_paSecure hcreate]
    exact hsecure
  have hsame := store_sameTables hscalar zVar v bBorrowed nAlloc zWritten
  exact ⟨hkept.trans (store_kept hr hsecure₁ v bBorrowed nAlloc zWritten),
    hnext.trans hsame.nextVar.ge⟩

theorem setVar_kept (hold : CellsOld s z) (hnot : ¬ LeadsTo s z 0 zVar)
    (hsecure : isSecureVar s zVar = true → ¬ Means z zVar) (v : TString) :
    Kept z s (setVar s zVar v).1 ∧ s.nextVar ≤ (setVar s zVar v).1.nextVar := by
  unfold setVar
  cases hcreate : createValue s 0 zVar with
  | error e => exact ⟨.refl z s, le_refl _⟩
  | ok p =>
    obtain ⟨s₁, r⟩ := p
    obtain ⟨hkept, hnext, -, -⟩ := createValue_kept hold (fun _ => hnot) hcreate
    dsimp only
    split_ifs with harray
    · exact ⟨hkept, hnext⟩
    · exact createValue_store_kept hold hnot hsecure hcreate (by simpa using harray) _ _ _ _

theorem appendVar_kept (hold : CellsOld s z) (hnot : ¬ LeadsTo s z 0 zVar)
    (hsecure : isSecureVar s zVar = true → ¬ Means z zVar) (args : List TString) :
    Kept z s (appendVar s zVar args) ∧ s.nextVar ≤ (appendVar s zVar args).nextVar := by
  unfold appendVar
  dsimp only
  cases hplace : appendInPlace s zVar (concatArgs args) with
  | some s' =>
    refine ⟨?_, (appendInPlace_sameTables hplace).nextVar.ge⟩
    unfold appendInPlace at hplace
    cases hfind : findValue s zVar with
    | none => simp [hfind] at hplace
    | some r =>
      rw [hfind] at hplace
      dsimp only at hplace
      split_ifs at hplace
      cases hplace
      have hr : ¬ IsCell s z r := fun hc => hnot (.inr (.inr ⟨r, hfind, hc⟩))
      refine .of_heap ?_ (fun c hc => ?_) rfl
      · cases globalPlace z <;> rfl
      · have hne : c ≠ r := fun heq => hr (heq ▸ hc)
        simp [hne]
  | none =>
    cases hcreate : createValue s 0 zVar with
    | error e => exact ⟨.refl z s, le_refl _⟩
    | ok p =>
      obtain ⟨s₁, r⟩ := p
      obtain ⟨hkept, hnext, -, -⟩ := createValue_kept hold (fun _ => hnot) hcreate
      dsimp only
      split_ifs with harray
      · exact ⟨hkept, hnext⟩
      · exact createValue_store_kept hold hnot hsecure hcreate (by simpa using harray) _ _ _ _

theorem kept_heap {s' : VarState} (houter : s'.outer (globalPlace z) = s.outer (globalPlace z))
    (hheap : ∀ c, (s'.heap c).zData = (s.heap c).zData ∧ (s'.heap c).pHash = (s.heap c).pHash)
    (hsecure : s'.paSecure = s.paSecure) : Kept z s s' :=
  .of_heap houter (fun c _ => hheap c) hsecure

theorem update_nRef (heap : VarId → Variable) (r : VarId) (n : ℕ) (c : VarId) :
    (Function.update heap r { heap r with nRef := n } c).zData = (heap c).zData ∧
      (Function.update heap r { heap r with nRef := n } c).pHash = (heap c).pHash := by
  by_cases hc : c = r
  · subst hc
    simp
  · simp [hc]

theorem linkVar_kept (hold : CellsOld s z) {zLocal zRemote : Bytes} {iFrame : ℤ}
    (hnot : findValueAt s (framesUp s iFrame) zRemote = none →
      ¬ LeadsTo s z (framesUp s iFrame) zRemote)
    (hlocal : s.outer (.frame 0 zLocal) = none → s.slot (.frame 0 zLocal) ≠ globalPlace z) :
    Kept z s (linkVar s zLocal iFrame zRemote).1 ∧
      s.nextVar ≤ (linkVar s zLocal iFrame zRemote).1.nextVar := by
  unfold linkVar
  split_ifs
  · exact ⟨.refl z s, le_refl _⟩
  · cases hcreate : createValue s (framesUp s iFrame) zRemote with
    | error e => exact ⟨.refl z s, le_refl _⟩
    | ok p =>
      obtain ⟨s₁, r⟩ := p
      obtain ⟨hkept, hnext, hframes, -⟩ := createValue_kept hold hnot hcreate
      dsimp only
      split_ifs with hexists
      · exact ⟨hkept, hnext⟩
      · refine ⟨hkept.trans (kept_heap ?_ (fun c => ?_) ?_), ?_⟩
        · have hslot : s₁.slot (.frame 0 zLocal) = s.slot (.frame 0 zLocal) := by
            simp only [VarState.slot, hframes]
          have hnone : s₁.outer (.frame 0 zLocal) = none := Option.not_isSome_iff_eq_none.mp hexists
          have hne : s₁.slot (.frame 0 zLocal) ≠ s₁.slot (globalPlace z) := by
            rw [slot_globalPlace, hslot]
            intro heq
            refine hlocal ?_ heq
            rw [← outer_slot, heq, ← hkept.outer, ← heq, ← hslot, outer_slot, hnone]
          have hentry := outer_insert_of_slot_ne s₁ r hne
          rw [← hentry]
          cases globalPlace z <;> rfl
        · exact update_nRef s₁.heap r _ c
        · exact insert_paSecure _ _ _
        · rw [insert_nextVar]
          exact hnext

theorem lookup_filter_of_kept {t : Table} {k : Bytes} {q : Bytes × VarId → Bool}
    (h : ∀ r, t.lookup k = some r → q (k, r) = true) : (t.filter q).lookup k = t.lookup k := by
  induction t with
  | nil => rfl
  | cons p t ih =>
    obtain ⟨k', r⟩ := p
    by_cases hk : k = k'
    · subst hk
      have hq : q (k, r) = true := h r lookup_cons_self
      rw [filter_cons_of_pos hq, lookup_cons_self, lookup_cons_self]
    · have hlookup : ((k', r) :: t).lookup k = t.lookup k := by
        rw [lookup_cons, beq_false_of_ne hk]
      rw [hlookup] at h ⊢
      by_cases hq : q (k', r) = true
      · rw [filter_cons_of_pos hq, lookup_cons, beq_false_of_ne hk]
        exact ih h
      · rw [filter_cons_of_neg hq]
        exact ih h

theorem unlink_lookup {inGlobal : Bool} {zOuter k : Bytes}
    (hr : inGlobal = true → s.globalFrame.lookup zOuter = some r)
    (hk : s.globalFrame.lookup k ≠ some r) :
    (s.unlink inGlobal zOuter r).2.lookup k = s.globalFrame.lookup k := by
  cases inGlobal with
  | true =>
    refine lookup_filter_of_kept fun a ha => ?_
    have hne : k ≠ zOuter := by
      rintro rfl
      exact hk (hr rfl)
    simpa using hne
  | false =>
    simp only [VarState.unlink, Bool.false_eq_true, if_false]
    by_cases hshared : 1 < (s.heap r).nRef
    · rw [if_pos hshared]
      refine lookup_filter_of_kept fun a ha => ?_
      have hne : a ≠ r := by
        rintro rfl
        exact hk ha
      simpa using hne
    · rw [if_neg hshared]

theorem unsetVar_kept (hnot : ¬ UnsetHits s z zVar) :
    Kept z s (unsetVar s zVar).1 ∧ s.nextVar ≤ (unsetVar s zVar).1.nextVar := by
  have hentry := unset_lookup s (analyzeVarName zVar)
  unfold unsetVar
  dsimp only
  split
  · exact ⟨.refl z s, le_refl _⟩
  · rename_i r zInner hlookup hinner
    rw [hentry] at hlookup
    have hr : ¬ IsCell s z r := fun hc =>
      hnot ⟨r, hlookup, .inr ⟨by simp [hinner], hc⟩⟩
    split
    · exact ⟨.refl z s, le_refl _⟩
    · split
      · exact ⟨.refl z s, le_refl _⟩
      · rename_i e _
        have hdec : Kept z s { s with heap := decRef s.heap e } := by
          refine kept_heap ?_ (fun c => ?_) rfl
          · cases globalPlace z <;> rfl
          · obtain ⟨⟨hdata, -⟩, hhash⟩ := decRef_sameData s.heap e c
            exact ⟨hdata, hhash⟩
        exact ⟨hdec.trans (kept_setHash (fun hc => hr ((hdec.isCell_iff r).mp hc)) _), le_refl _⟩
  · rename_i r hlookup hinner
    have hne : s.outer (globalPlace z) ≠ some r := by
      intro heq
      rw [hentry] at hlookup
      exact hnot ⟨r, hlookup, .inl heq⟩
    refine ⟨kept_heap ?_ (update_nRef s.heap r _) rfl, le_refl _⟩
    cases hplace : globalPlace z with
    | frame up key => exact absurd hplace (globalPlace_ne_frame z up key)
    | ns path key => rfl
    | global key =>
      rw [hplace] at hne
      refine unlink_lookup (fun hglobal => ?_) hne
      rw [if_pos hglobal] at hlookup
      exact hlookup

theorem popFrame_kept : Kept z s (popFrame s) ∧ s.nextVar ≤ (popFrame s).nextVar := by
  unfold popFrame
  split
  · exact ⟨.refl z s, le_refl _⟩
  · rename_i f callers hframes
    refine ⟨kept_heap ?_ (fun c => ?_) rfl, le_refl _⟩
    · cases hplace : globalPlace z with
      | frame up key => exact absurd hplace (globalPlace_ne_frame z up key)
      | global key => rfl
      | ns path key => rfl
    · obtain ⟨⟨hdata, -⟩, hhash⟩ := foldl_decRef_sameData (f.map Prod.snd) s.heap c
      exact ⟨hdata, hhash⟩

theorem pushFrame_kept : Kept z s (pushFrame s) := by
  refine kept_heap ?_ (fun _ => ⟨rfl, rfl⟩) rfl
  cases hplace : globalPlace z with
  | frame up key => exact absurd hplace (globalPlace_ne_frame z up key)
  | global key => rfl
  | ns path key => rfl

end Write

end Th8
