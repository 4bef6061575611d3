import Th8.Variables.NameAgreement

/-!
# Appending in place

`th8AppendInPlace` extends a value whose buffer has room left and goes past the setter.  The
setter does more than to store the value: it counts the record up and wakes whoever waits,
and the lookup with creation counts up the array of an element.  These counters are added
to the variables here, and the two ways to append are compared.

The counters do not overflow.
-/

namespace Th8

open Support Option

namespace InPlace

/-- The variables, with the changes of each record (`nWait`), the modifications of each
array (`nEpoch`) and the calls of `th8SignalAllStates`. -/
structure Watched where
  vars : VarState
  nWait : VarId → ℕ
  nEpoch : VarId → ℕ
  signals : ℕ

def parentArray (s : VarState) (zVar : Bytes) : Option VarId :=
  (analyzeVarName zVar).zInner.bind fun _ => s.outer (varPlace 0 (analyzeVarName zVar))

def bump (count : VarId → ℕ) : Option VarId → VarId → ℕ
  | some r => Function.update count r (count r + 1)
  | none => count

namespace Watched

/-- `th8FindValue` with creation, which counts up the array of an element. -/
def createValue (w : Watched) (zVar : Bytes) : Except Failure (Watched × VarId) :=
  match Th8.createValue w.vars 0 zVar with
  | .error e => .error e
  | .ok (vars, r) =>
    .ok ({ w with vars := vars, nEpoch := bump w.nEpoch (parentArray vars zVar) }, r)

/-- What `Th8_SetVar` and `th8SetVarValue` have in common. -/
def assign (w : Watched) (zVar : Bytes) (v : TString) (bBorrowed : Bool) (nAlloc : ℕ)
    (zWritten : VarId → Bytes) : Watched × Except Failure Unit :=
  match w.createValue zVar with
  | .error e => (w, .error e)
  | .ok (w₁, r) =>
    if (w₁.vars.heap r).pHash.isSome then
      (w₁, .error (.message "can't set variable (is array):" zVar))
    else
      ({ w₁ with
        vars := w₁.vars.store zVar r v bBorrowed nAlloc (zWritten r)
        nWait := bump w₁.nWait (some r)
        signals := w₁.signals + 1 }, .ok ())

def setVar (w : Watched) (zVar : Bytes) (v : TString) : Watched × Except Failure Unit :=
  w.assign zVar v false 0 fun _ => v.bytes

/-- `th8SetVarValue`, with a buffer of `nCapacity` bytes that the variable borrows. -/
def setVarValue (w : Watched) (zVar : Bytes) (v : TString) (nCapacity : ℕ)
    (zWritten : VarId → Bytes) : Watched × Except Failure Unit :=
  w.assign zVar v true nCapacity zWritten

/-- `th8AppendInPlace`; none if it declines. -/
def appendInPlace (w : Watched) (zVar : Bytes) (args : List TString) : Option Watched :=
  (Th8.appendInPlace w.vars zVar (concatArgs args)).map fun vars => { w with vars := vars }

end Watched

def appended (s : VarState) (zVar : Bytes) (args : List TString) : TString :=
  let cur := match getVar s zVar with
    | .ok res => res.value
    | .error _ => TString.plain []
  ⟨cur.bytes ++ (concatArgs args).bytes, cur.tags ||| (concatArgs args).tags⟩

/-- `append_command` with at least one value.  When `th8SetVarValue` refuses, the loop over
`Th8_SetVar` that follows is refused in the same way. -/
def Watched.append (w : Watched) (zVar : Bytes) (args : List TString) : Watched :=
  match w.appendInPlace zVar args with
  | some w' => w'
  | none =>
    let v := appended w.vars zVar args
    (w.setVarValue zVar v (appendCapacity (2 * (v.bytes.length + 1))) fun r =>
      w.vars.written r ++ (concatArgs args).bytes).1

/-! ## Variables as they can be -/

def BorrowersScalar (s : VarState) : Prop :=
  ∀ r, (s.heap r).bBorrowed = true → (s.heap r).pHash = none ∧ (s.heap r).zData.isSome = true

namespace BorrowersScalar

variable {s s' : VarState}

variable {r : VarId}

section

variable (h : BorrowersScalar s)

include h

theorem update {v : Variable} (hheap : s'.heap = Function.update s.heap r v)
    (hv : v.bBorrowed = true → v.pHash = none ∧ v.zData.isSome = true) : BorrowersScalar s' := by
  intro a ha
  rw [hheap] at ha ⊢
  by_cases har : a = r
  · subst har
    rw [Function.update_self] at ha ⊢
    exact hv ha
  · rw [Function.update_of_ne har] at ha ⊢
    exact h a ha

theorem congr (hheap : s'.heap = s.heap) : BorrowersScalar s' := by
  intro r hr
  rw [hheap] at hr ⊢
  exact h r hr

theorem decRef (r : VarId) : BorrowersScalar { s with heap := decRef s.heap r } :=
  h.update rfl (h r)

end

theorem foldl_decRef (rs : List VarId) (h : BorrowersScalar s) :
    BorrowersScalar { s with heap := rs.foldl Th8.decRef s.heap } := by
  induction rs generalizing s with
  | nil => exact h
  | cons r rs ih => exact ih (h.decRef r)

section

variable (h : BorrowersScalar s)

include h

theorem setHash (hr : (s.heap r).pHash = none → (s.heap r).zData = none) (t : Table) :
    BorrowersScalar (s.setHash r t) := by
  refine h.update rfl fun hb => ?_
  obtain ⟨hhash, hdata⟩ := h r hb
  rw [hr hhash] at hdata
  cases hdata

theorem creationStep (hstep : CreationStep s s') : BorrowersScalar s' := by
  have halloc : BorrowersScalar s.alloc.1 := h.update rfl fun hb => by cases hb
  cases hstep with
  | namespaces path hdepth => exact h.congr rfl
  | entry place hns hnone => exact halloc.congr (insert_heap _ _ _)
  | element place r zInner hr hscalar hnone =>
    refine halloc.setHash (fun hhash => ?_) _
    by_cases hnew : r = s.nextVar
    · subst hnew
      simp [VarState.alloc, Variable.new]
    · simp only [VarState.alloc, Function.update_of_ne hnew] at hhash ⊢
      exact hscalar hhash

theorem store (hr : (s.heap r).pHash = none) (zVar : Bytes) (v : TString)
    (bBorrowed : Bool) (nAlloc : ℕ) (zWritten : Bytes) :
    BorrowersScalar (s.store zVar r v bBorrowed nAlloc zWritten) := by
  unfold VarState.store
  split_ifs
  · exact h.update rfl fun _ => ⟨hr, rfl⟩
  · exact h.update rfl fun _ => ⟨hr, rfl⟩

theorem createValue {up : ℕ} {zVar : Bytes}
    (hcreate : createValue s up zVar = .ok (s', r)) : BorrowersScalar s' :=
  (createValue_creation hcreate).1.invariant creationStep h

theorem setVar (zVar : Bytes) (v : TString) : BorrowersScalar (setVar s zVar v).1 := by
  unfold Th8.setVar
  cases hcreate : Th8.createValue s 0 zVar with
  | error e => exact h
  | ok p =>
    have h₁ := h.createValue hcreate
    dsimp only
    split_ifs with harray
    · exact h₁
    · exact h₁.store (by simpa using harray) _ _ _ _ _

theorem appendInPlace {zVar : Bytes} {app : TString}
    (happ : Th8.appendInPlace s zVar app = some s') : BorrowersScalar s' := by
  unfold Th8.appendInPlace at happ
  cases hfind : findValue s zVar with
  | none => simp [hfind] at happ
  | some r =>
    rw [hfind] at happ
    dsimp only at happ
    split_ifs at happ
    cases happ
    exact h.update rfl fun hb => ⟨(h r hb).1, by simpa using (h r hb).2⟩

theorem appendVar (zVar : Bytes) (args : List TString) :
    BorrowersScalar (appendVar s zVar args) := by
  unfold Th8.appendVar
  dsimp only
  cases hplace : Th8.appendInPlace s zVar (concatArgs args) with
  | some s' => exact h.appendInPlace hplace
  | none =>
    cases hcreate : Th8.createValue s 0 zVar with
    | error e => exact h
    | ok p =>
      have h₁ := h.createValue hcreate
      dsimp only
      split_ifs with harray
      · exact h₁
      · exact h₁.store (by simpa using harray) _ _ _ _ _

theorem unsetVar (zVar : Bytes) : BorrowersScalar (unsetVar s zVar).1 := by
  unfold Th8.unsetVar
  dsimp only
  split
  · exact h
  · split
    · exact h
    · rename_i harray
      split
      · exact h
      · refine (h.decRef _).setHash (fun hnone => ?_) _
        rw [(decRef_sameData s.heap _ _).2, harray] at hnone
        cases hnone
  · exact h.update rfl (h _)

theorem linkVar (zLocal : Bytes) (iFrame : ℤ) (zRemote : Bytes) :
    BorrowersScalar (linkVar s zLocal iFrame zRemote).1 := by
  rcases linkVar_cases s zLocal iFrame zRemote with hsame | ⟨s₁, r, hcreate, -, hs₁⟩
  · rw [hsame]
    exact h
  · have h₁ : BorrowersScalar s₁ := hcreate.invariant creationStep h
    rcases hs₁ with hs₁ | ⟨-, hs₁⟩
    · rw [hs₁]
      exact h₁
    · rw [hs₁]
      exact h₁.update rfl (h₁ r)

theorem secureVarCreate (zVar v : Bytes) : BorrowersScalar (secureVarCreate s zVar v).1 := by
  have hset := h.setVar zVar (TString.plain [])
  unfold Th8.secureVarCreate
  split_ifs
  · exact h
  · exact h
  · exact h
  · rcases hs : Th8.setVar s zVar (TString.plain []) with ⟨s₁, res⟩
    rw [hs] at hset
    cases res with
    | error e => exact hset
    | ok _ =>
      dsimp only
      cases findValue s₁ zVar with
      | none => exact hset.congr rfl
      | some r => exact hset.congr rfl

theorem varStep (op : VarOp) : BorrowersScalar (varStep s op) := by
  cases op with
  | secureCreate zVar v => exact h.secureVarCreate zVar v
  | set zVar v => exact h.setVar zVar v
  | append zVar args => exact h.appendVar zVar args
  | link zLocal iFrame zRemote => exact h.linkVar zLocal iFrame zRemote
  | unset zVar => exact h.unsetVar zVar
  | push => exact h.congr rfl
  | pop =>
    simp only [Th8.varStep, popFrame]
    split
    · exact h
    · exact h.foldl_decRef _

end

end BorrowersScalar

/-- The borrowers are scalars, and no variable is in a namespace that does not exist. -/
structure Sound (s : VarState) : Prop where
  namespaces : NamespacesSound s
  borrowers : BorrowersScalar s

theorem sound_of_reachable {s : VarState} (hs : Reachable varStep VarState.init s) : Sound s := by
  refine ⟨namespacesSound_of_reachable hs, ?_⟩
  have hinit : BorrowersScalar VarState.init := fun r hr => by cases hr
  exact hs.invariant hinit fun _ op h _ => h.varStep op

/-! ## The two ways to append -/

def HasRoom (s : VarState) (zVar : Bytes) (args : List TString) : Prop :=
  ∃ r, findValue s zVar = some r ∧ (s.heap r).bBorrowed = true ∧ (s.heap r).nAlloc ≠ 0 ∧
    (s.heap r).bytes.length + (concatArgs args).bytes.length < (s.heap r).nAlloc

/-- What can be told of two states by the variable, by those who wait, and by the searches of
arrays. -/
structure SameOutcome (zVar : Bytes) (w w' : Watched) : Prop where
  value : getVar w.vars zVar = getVar w'.vars zVar
  nWait : w.nWait = w'.nWait
  signals : w.signals = w'.signals
  nEpoch : w.nEpoch = w'.nEpoch

/-- When `th8AppendInPlace` succeeds, it leaves what setting the variable to its value
followed by the arguments leaves. -/
def AppendsAsSet (w : Watched) (zVar : Bytes) (args : List TString) : Prop :=
  ∀ w', w.appendInPlace zVar args = some w' →
    SameOutcome zVar w' (w.setVar zVar (appended w.vars zVar args)).1

theorem createValue_of_findValue {s : VarState} (hs : NamespacesSound s) {zVar : Bytes}
    {r : VarId} (hfind : findValue s zVar = some r) : createValue s 0 zVar = .ok (s, r) := by
  unfold findValue findValueAt at hfind
  dsimp only at hfind
  cases houter : s.outer (varPlace 0 (analyzeVarName zVar)) with
  | none => simp [houter] at hfind
  | some a =>
    have hens : s.ensureNs (varPlace 0 (analyzeVarName zVar)) = some s := by
      cases hplace : varPlace 0 (analyzeVarName zVar) with
      | frame up key => rfl
      | global key => rfl
      | ns path key =>
        have hmem : path ∈ s.namespaces := by
          by_contra hnot
          rw [hplace, VarState.outer, VarState.table, hs.empty path hnot] at houter
          cases houter
        rw [VarState.ensureNs, if_pos (List.contains_iff_mem.mpr hmem)]
    have hcreate : s.createOuter (varPlace 0 (analyzeVarName zVar)) = some (s, a) := by
      simp only [VarState.createOuter, hens, map_some, houter]
    rw [houter] at hfind
    unfold createValue
    simp only [hcreate]
    cases hinner : (analyzeVarName zVar).zInner with
    | none =>
      rw [hinner] at hfind
      cases hfind
      rfl
    | some zInner =>
      rw [hinner] at hfind
      obtain ⟨pHash, hhash, hlookup⟩ := bind_eq_some_iff.mp hfind
      simp only [hhash, VarState.createElem, hlookup, setHash_self hhash]

section Comparison

variable {w : Watched} {zVar : Bytes} {args : List TString}

variable {w' : Watched}

theorem appendInPlace_eq_some_iff :
    w.appendInPlace zVar args = some w' ↔
      ∃ r, findValue w.vars zVar = some r ∧ (w.vars.heap r).bBorrowed = true ∧
        (w.vars.heap r).nAlloc ≠ 0 ∧
        (w.vars.heap r).bytes.length + (concatArgs args).bytes.length < (w.vars.heap r).nAlloc ∧
        w' = { w with vars := { w.vars with
          heap := Function.update w.vars.heap r { w.vars.heap r with
            zData := (w.vars.heap r).zData.map fun z =>
              ⟨z.bytes ++ (concatArgs args).bytes, z.tags ||| (concatArgs args).tags⟩ }
          written := Function.update w.vars.written r
            (w.vars.written r ++ (concatArgs args).bytes) } } := by
  unfold Watched.appendInPlace Th8.appendInPlace
  cases hfind : findValue w.vars zVar with
  | none => simp
  | some r =>
    dsimp only
    split_ifs with hguard
    · simp only [Bool.and_eq_true, bne_iff_ne, decide_eq_true_eq] at hguard
      constructor
      · intro h
        exact ⟨r, rfl, hguard.1.1, hguard.1.2, hguard.2, (some.inj h).symm⟩
      · rintro ⟨r', hr', -, -, -, rfl⟩
        cases hr'
        rfl
    · simp only [Bool.and_eq_true, bne_iff_ne, decide_eq_true_eq] at hguard
      simp only [map_none, reduceCtorEq, false_iff]
      rintro ⟨r', hr', hborrowed, hcap, hroom, -⟩
      cases hr'
      exact hguard ⟨⟨hborrowed, hcap⟩, hroom⟩

theorem appendInPlace_of_hasRoom (h : HasRoom w.vars zVar args) :
    ∃ w', w.appendInPlace zVar args = some w' := by
  obtain ⟨r, hfind, hborrowed, hcap, hroom⟩ := h
  exact ⟨_, appendInPlace_eq_some_iff.mpr ⟨r, hfind, hborrowed, hcap, hroom, rfl⟩⟩

theorem hasRoom_of_appendInPlace (h : w.appendInPlace zVar args = some w') :
    HasRoom w.vars zVar args := by
  obtain ⟨r, hfind, hborrowed, hcap, hroom, -⟩ := appendInPlace_eq_some_iff.mp h
  exact ⟨r, hfind, hborrowed, hcap, hroom⟩

theorem setVar_of_findValue (hw : NamespacesSound w.vars) {r : VarId}
    (hfind : findValue w.vars zVar = some r) (hscalar : (w.vars.heap r).pHash = none)
    (v : TString) :
    w.setVar zVar v =
      ({ vars := w.vars.store zVar r v false 0 v.bytes
         nWait := bump w.nWait (some r)
         nEpoch := bump w.nEpoch (parentArray w.vars zVar)
         signals := w.signals + 1 }, .ok ()) := by
  have hcreate : w.createValue zVar =
      .ok ({ w with nEpoch := bump w.nEpoch (parentArray w.vars zVar) }, r) := by
    rw [Watched.createValue, createValue_of_findValue hw hfind]
  rw [Watched.setVar, Watched.assign, hcreate]
  simp only [hscalar, isSome_none, Bool.false_eq_true, if_false]

theorem not_sameOutcome_of_appendInPlace (hw : Sound w.vars)
    (happ : w.appendInPlace zVar args = some w') :
    ¬SameOutcome zVar w' (w.setVar zVar (appended w.vars zVar args)).1 := by
  obtain ⟨r, hfind, hborrowed, -, -, rfl⟩ := appendInPlace_eq_some_iff.mp happ
  intro hsame
  have hsignals := hsame.signals
  rw [setVar_of_findValue hw.namespaces hfind (hw.borrowers r hborrowed).1] at hsignals
  exact absurd hsignals (Nat.ne_of_lt (Nat.lt_succ_self w.signals))

end Comparison

/-- Appending in place is what a set is only where it declines: every append that it makes
goes unnoticed by those who wait. -/
theorem appendsAsSet_iff {w : Watched} (hw : Sound w.vars) (zVar : Bytes)
    (args : List TString) : AppendsAsSet w zVar args ↔ ¬HasRoom w.vars zVar args := by
  constructor
  · intro hset hroom
    obtain ⟨w', happ⟩ := appendInPlace_of_hasRoom hroom
    exact not_sameOutcome_of_appendInPlace hw happ (hset w' happ)
  · intro hroom w' happ
    exact absurd (hasRoom_of_appendInPlace happ) hroom

def watchedInit : Watched := ⟨VarState.init, fun _ => 0, fun _ => 0, 0⟩

theorem appendsAsSet_init :
    AppendsAsSet watchedInit (ascii "x") [TString.plain (ascii "b")] ↔
      ¬HasRoom watchedInit.vars (ascii "x") [TString.plain (ascii "b")] :=
  appendsAsSet_iff (sound_of_reachable .init) _ _

/-- The state after `append a(k) x`. -/
def appendedOnce : Watched := watchedInit.append (ascii "a(k)") [TString.plain (ascii "x")]

/-- The record of `a(k)`, that of `a`, and the signals. -/
def counters (w : Watched) : ℕ × ℕ × ℕ := (w.nWait 1, w.nEpoch 0, w.signals)

/-- A second append to the element of an array counts nothing up; a set would. -/
theorem not_appendsAsSet :
    counters appendedOnce = (1, 1, 1) ∧
    (appendedOnce.appendInPlace (ascii "a(k)") [TString.plain (ascii "y")]).map counters =
      some (1, 1, 1) ∧
    counters (appendedOnce.setVar (ascii "a(k)") (TString.plain (ascii "xy"))).1 = (2, 2, 2) ∧
    ¬AppendsAsSet appendedOnce (ascii "a(k)") [TString.plain (ascii "y")] := by
  have happ : (appendedOnce.appendInPlace (ascii "a(k)") [TString.plain (ascii "y")]).map
      counters = some (1, 1, 1) := by decide
  refine ⟨by decide, happ, by decide, fun h => ?_⟩
  obtain ⟨w', hw', -⟩ := map_eq_some_iff.mp happ
  have hsignals := (h w' hw').signals
  obtain ⟨vars, -, rfl⟩ := map_eq_some_iff.mp hw'
  change appendedOnce.signals = _ at hsignals
  exact absurd hsignals (by decide)

end InPlace

end Th8
