import Th8.Variables.ProtectedRuns

/-!
# Setting a variable without memory

`Th8_SetVar` looks its variable up, creating what is missing, releases the old value, notes
the length of the new one and only then allocates it.  The operations are those of the
store; here every allocation of a set can be refused, and a record keeps a length of its own
while it has no data.

The variable is reached from the current frame.  An append that gets no buffer sets the
variable once for each value, and these sets are steps of their own.  Drawing a key does not fail.
-/

namespace Th8

open Support Option

namespace Setter

/-- The allocations of a set: the path of a namespace and the namespaces on it, an entry and
its record, the hash of an array, an entry of it and its record, the value, what
`th8SecureSetVar` needs, and the empty value of a secure variable. -/
inductive Site where
  | path
  | namespaces
  | entry
  | record
  | hash
  | elemEntry
  | elemRecord
  | value
  | encrypt
  | sentinel
deriving DecidableEq

abbrev Refusals := Site → Bool

/-- The variables, the lengths and tags (`nData`) of the records without data, and the secure
variables whose key was drawn anew and whose value was not encrypted under it. -/
structure State where
  vars : VarState
  stale : VarId → ℕ × Tags
  garbled : Bytes → Bool

def State.init : State := ⟨VarState.init, fun _ => (0, Tags.clean), fun _ => false⟩

/-- `nData` of a record: its length and its tags. -/
def State.nData (s : State) (r : VarId) : ℕ × Tags :=
  match (s.vars.heap r).zData with
  | some v => (v.bytes.length, v.tags)
  | none => s.stale r

/-- The namespace of a place.  `th8FindNamespace` takes back what it made when it fails. -/
def growNs (fails : Refusals) (s : VarState) : VarPlace → Option VarState
  | .ns path key =>
    if fails .path || fails .namespaces then none else s.ensureNs (.ns path key)
  | place => s.ensureNs place

/-- The record at a place, created if there is none.  An entry that gets no record is there
for no one. -/
def findOuter (fails : Refusals) (s : VarState) (place : VarPlace) : VarState × Option VarId :=
  match growNs fails s place with
  | none => (s, none)
  | some s₁ =>
    match s₁.outer place with
    | some r => (s₁, some r)
    | none =>
      if fails .entry || fails .record then (s₁, none)
      else (s₁.alloc.1.insert s₁.alloc.2 place, some s₁.alloc.2)

def findElem (fails : Refusals) (s : VarState) (r : VarId) (pHash : Table) (zInner : Bytes) :
    VarState × Except Failure VarId :=
  match pHash.lookup zInner with
  | some e => (s.setHash r pHash, .ok e)
  | none =>
    if fails .elemEntry || fails .elemRecord then (s.setHash r pHash, .error .silent)
    else (s.alloc.1.setHash r ((zInner, s.alloc.2) :: pHash), .ok s.alloc.2)

/-- `th8FindValue` with creation. -/
def findValueCreating (fails : Refusals) (s : VarState) (zVar : Bytes) :
    VarState × Except Failure VarId :=
  let name := analyzeVarName zVar
  match findOuter fails s (varPlace 0 name) with
  | (s₁, none) => (s₁, .error .silent)
  | (s₁, some r) =>
    match name.zInner, (s₁.heap r).pHash with
    | none, _ => (s₁, .ok r)
    | some zInner, some pHash => findElem fails s₁ r pHash zInner
    | some zInner, none =>
      if (s₁.heap r).zData.isSome then
        (s₁, .error (.message "variable is a scalar:" name.zOuter))
      else if fails .hash then (s₁, .error .silent)
      else findElem fails s₁ r [] zInner

def State.withoutData (s : State) (r : VarId) (v : TString) : State :=
  { s with
    vars := { s.vars with
      heap := Function.update s.vars.heap r
        { s.vars.heap r with zData := none, bBorrowed := false, nAlloc := 0 } }
    stale := Function.update s.stale r (v.bytes.length, v.tags) }

def setVar (fails : Refusals) (s : State) (zVar : Bytes) (v : TString) :
    State × Except Failure Unit :=
  match findValueCreating fails s.vars zVar with
  | (vars, .error e) => ({ s with vars := vars }, .error e)
  | (vars, .ok r) =>
    let s₁ := { s with vars := vars }
    if (vars.heap r).pHash.isSome then
      (s₁, .error (.message "can't set variable (is array):" zVar))
    else if fails .value then (s₁.withoutData r v, .error (.static "out of memory"))
    else
      let s₂ := { s₁ with vars := vars.store zVar r v false 0 v.bytes }
      if isSecureVar vars zVar then
        -- The key is drawn anew before the value is encrypted.
        let s₃ : State :=
          if fails .encrypt then
            { s₂ with
              vars := { s₂.vars with paSecure := vars.paSecure }
              garbled := Function.update s.garbled zVar true }
          else { s₂ with garbled := Function.update s.garbled zVar false }
        if fails .sentinel then (s₃.withoutData r v, .error (.static "out of memory"))
        else (s₃, if fails .encrypt then .error .silent else .ok ())
      else (s₂, .ok ())

def encrypts (s : VarState) (zVar : Bytes) : VarOp → Bool
  | .set z v => z == zVar && isSecureVar s z && (Th8.setVar s z v).2.isOk
  | .append z args =>
    z == zVar && isSecureVar s z && (appendInPlace s z (concatArgs args)).isNone &&
      match createValue s 0 z with
      | .ok (s₁, r) => (s₁.heap r).pHash.isNone
      | .error _ => false
  | .secureCreate z v => z == zVar && (secureVarCreate s z v).2.isOk
  | _ => false

/-- A set with the allocations that are refused, or an operation that gets its memory. -/
inductive Op where
  | set (fails : Refusals) (zVar : Bytes) (v : TString)
  | granted (op : VarOp)

def step (s : State) : Op → State
  | .set fails zVar v => (setVar fails s zVar v).1
  | .granted op =>
    { s with
      vars := varStep s.vars op
      garbled := fun z => s.garbled z && !encrypts s.vars z op }

/-! ## What the lookup leaves -/

section Lookup

variable {fails : Refusals} {s s₁ : VarState} {zVar : Bytes} {place : VarPlace}

theorem growNs_eq (h : growNs fails s place = some s₁) :
    ∃ ns, s₁ = { s with namespaces := ns } := by
  cases place with
  | frame up key => exact ⟨s.namespaces, (some.inj h).symm⟩
  | global key => exact ⟨s.namespaces, (some.inj h).symm⟩
  | ns path key =>
    simp only [growNs] at h
    split_ifs at h
    exact ensureNs_eq h

theorem findOuter_cases {res : Option VarId} (h : findOuter fails s place = (s₁, res)) :
    ∃ ns, (∃ r, res = some r ∧ s.outer place = some r ∧ s₁ = { s with namespaces := ns }) ∨
      (res = some s.nextVar ∧ s.outer place = none ∧
        s₁ = ({ s with namespaces := ns }.alloc.1).insert s.nextVar place) ∨
      (res = none ∧ s₁ = { s with namespaces := ns } ∧ (s₁ = s ∨ s.outer place = none)) := by
  unfold findOuter at h
  cases hgrow : growNs fails s place with
  | none =>
    rw [hgrow] at h
    cases h
    exact ⟨s.namespaces, .inr (.inr ⟨rfl, rfl, .inl rfl⟩)⟩
  | some s₀ =>
    obtain ⟨ns, rfl⟩ := growNs_eq hgrow
    rw [hgrow] at h
    dsimp only at h
    rw [outer_namespaces] at h
    refine ⟨ns, ?_⟩
    cases hfound : s.outer place with
    | some a =>
      rw [hfound] at h
      cases h
      exact .inl ⟨a, rfl, rfl, rfl⟩
    | none =>
      rw [hfound] at h
      split_ifs at h
      · cases h
        exact .inr (.inr ⟨rfl, rfl, .inr rfl⟩)
      · cases h
        exact .inr (.inl ⟨rfl, rfl, rfl⟩)

theorem findOuter_outer {r : VarId} (h : findOuter fails s place = (s₁, some r)) :
    s₁.outer place = some r := by
  obtain ⟨ns, ⟨a, ha, houter, rfl⟩ | ⟨ha, -, rfl⟩ | ⟨ha, -⟩⟩ := findOuter_cases h
  · cases ha
    rw [outer_namespaces, houter]
  · cases ha
    exact outer_insert _ _ _
  · cases ha

theorem findOuter_bounded (hs : IdsBounded s) {res : Option VarId}
    (h : findOuter fails s place = (s₁, res)) : IdsBounded s₁ := by
  have hns : ∀ ns, IdsBounded { s with namespaces := ns } := fun ns =>
    hs.mono (Nat.le_refl _) (fun hk => hk) fun ho => ho
  obtain ⟨ns, ⟨a, -, -, rfl⟩ | ⟨-, -, rfl⟩ | ⟨-, rfl, -⟩⟩ := findOuter_cases h
  · exact hns ns
  · exact (hns ns).alloc.insert (Nat.lt_succ_self _) place
  · exact hns ns

theorem findElem_cases {r : VarId} {pHash : Table} {zInner : Bytes}
    {res : Except Failure VarId} (h : findElem fails s r pHash zInner = (s₁, res)) :
    (∃ e, pHash.lookup zInner = some e ∧ res = .ok e ∧ s₁ = s.setHash r pHash) ∨
      (pHash.lookup zInner = none ∧ res = .ok s.nextVar ∧
        s₁ = s.alloc.1.setHash r ((zInner, s.nextVar) :: pHash)) ∨
      (pHash.lookup zInner = none ∧ res = .error .silent ∧ s₁ = s.setHash r pHash) := by
  unfold findElem at h
  cases hlookup : pHash.lookup zInner with
  | some e =>
    rw [hlookup] at h
    cases h
    exact .inl ⟨e, rfl, rfl, rfl⟩
  | none =>
    rw [hlookup] at h
    split_ifs at h
    · cases h
      exact .inr (.inr ⟨rfl, rfl, rfl⟩)
    · cases h
      exact .inr (.inl ⟨rfl, rfl, rfl⟩)

theorem findElem_bounded (hs : IdsBounded s) {r : VarId} {pHash : Table} {zInner : Bytes}
    (hold : ∀ p ∈ pHash, p.2 < s.nextVar) {res : Except Failure VarId}
    (h : findElem fails s r pHash zInner = (s₁, res)) : IdsBounded s₁ := by
  obtain ⟨e, -, -, rfl⟩ | ⟨-, -, rfl⟩ | ⟨-, -, rfl⟩ := findElem_cases h
  · exact hs.setHash r hold
  · refine hs.alloc.setHash r fun p hp => ?_
    rcases List.mem_cons.mp hp with rfl | hp
    · exact Nat.lt_succ_self _
    · exact Nat.lt_succ_of_lt (hold p hp)
  · exact hs.setHash r hold

theorem findValueCreating_eq {res : Except Failure VarId}
    (h : findValueCreating fails s zVar = (s₁, res)) :
    (findOuter fails s (varPlace 0 (analyzeVarName zVar)) = (s₁, none) ∧ res = .error .silent) ∨
      ∃ s₀ a, findOuter fails s (varPlace 0 (analyzeVarName zVar)) = (s₀, some a) ∧
        (((analyzeVarName zVar).zInner = none ∧ s₁ = s₀ ∧ res = .ok a) ∨
          ∃ zInner, (analyzeVarName zVar).zInner = some zInner ∧
            (findElem fails s₀ a ((s₀.heap a).pHash.getD []) zInner = (s₁, res) ∨
              ((s₀.heap a).pHash = none ∧ s₁ = s₀ ∧ ∃ e, res = .error e))) := by
  unfold findValueCreating at h
  dsimp only at h
  rcases houter : findOuter fails s (varPlace 0 (analyzeVarName zVar)) with ⟨s₀, _ | a⟩
  · rw [houter] at h
    cases h
    exact .inl ⟨rfl, rfl⟩
  · rw [houter] at h
    refine .inr ⟨s₀, a, rfl, ?_⟩
    cases hinner : (analyzeVarName zVar).zInner with
    | none =>
      simp only [hinner] at h
      cases h
      exact .inl ⟨rfl, rfl, rfl⟩
    | some zInner =>
      refine .inr ⟨zInner, rfl, ?_⟩
      simp only [hinner] at h
      cases hhash : (s₀.heap a).pHash with
      | some t =>
        rw [hhash] at h
        exact .inl h
      | none =>
        rw [hhash] at h
        split_ifs at h
        · cases h
          exact .inr ⟨rfl, rfl, _, rfl⟩
        · cases h
          exact .inr ⟨rfl, rfl, _, rfl⟩
        · exact .inl h

theorem findValueCreating_bounded (hs : IdsBounded s) {res : Except Failure VarId}
    (h : findValueCreating fails s zVar = (s₁, res)) : IdsBounded s₁ := by
  obtain ⟨houter, -⟩ | ⟨s₀, a, houter, ⟨-, rfl, -⟩ | ⟨zInner, -, helem | ⟨-, rfl, -⟩⟩⟩ :=
    findValueCreating_eq h
  · exact findOuter_bounded hs houter
  · exact findOuter_bounded hs houter
  · have h₀ := findOuter_bounded hs houter
    refine findElem_bounded h₀ (fun p hp => ?_) helem
    cases hhash : (s₀.heap a).pHash with
    | none => simp [hhash] at hp
    | some t =>
      rw [hhash, getD_some] at hp
      exact h₀.outside (.inr (.inr ⟨a, t, p.1, hhash, hp⟩))
  · exact findOuter_bounded hs houter

theorem findValue_eq (s : VarState) (zVar : Bytes) :
    findValue s zVar = (s.outer (varPlace 0 (analyzeVarName zVar))).bind fun r =>
      match (analyzeVarName zVar).zInner with
      | none => some r
      | some zInner => (s.heap r).pHash.bind fun pHash => pHash.lookup zInner := by
  unfold findValue findValueAt
  dsimp only
  cases s.outer (varPlace 0 (analyzeVarName zVar)) with
  | none => rfl
  | some r => cases (analyzeVarName zVar).zInner <;> rfl

theorem findOuter_some {a : VarId} (h : findOuter fails s place = (s₁, some a)) :
    s.outer place = some a ∧ s₁.heap = s.heap ∨
      s.outer place = none ∧ a = s.nextVar ∧ s₁.heap a = Variable.new := by
  obtain ⟨ns, ⟨r, hr, houter, rfl⟩ | ⟨hr, houter, rfl⟩ | ⟨hr, -⟩⟩ := findOuter_cases h
  · cases hr
    exact .inl ⟨houter, rfl⟩
  · cases hr
    refine .inr ⟨houter, rfl, ?_⟩
    rw [insert_heap]
    simp [VarState.alloc]
  · cases hr

theorem findValue_element {s₀ : VarState} {a : VarId}
    (houter : findOuter fails s (varPlace 0 (analyzeVarName zVar)) = (s₀, some a))
    {zInner : Bytes} (hinner : (analyzeVarName zVar).zInner = some zInner) :
    findValue s zVar = ((s₀.heap a).pHash.getD []).lookup zInner := by
  rw [findValue_eq, hinner]
  rcases findOuter_some houter with ⟨hfound, hheap⟩ | ⟨hnone, -, hnew⟩
  · rw [hfound, hheap]
    cases hhash : (s.heap a).pHash <;> simp [hhash]
  · rw [hnone, hnew]
    rfl

theorem findValue_setHash {s₀ : VarState} {a : VarId}
    (houter : s₀.outer (varPlace 0 (analyzeVarName zVar)) = some a) {zInner : Bytes}
    (hinner : (analyzeVarName zVar).zInner = some zInner) (t : Table) :
    findValue (s₀.setHash a t) zVar = t.lookup zInner := by
  rw [findValue_eq, setHash_outer, houter, hinner]
  simp [VarState.setHash]

theorem findValueCreating_error {e : Failure}
    (h : findValueCreating fails s zVar = (s₁, .error e)) :
    s₁ = s ∨ findValue s zVar = none ∧ findValue s₁ zVar = none := by
  obtain ⟨houter, -⟩ | ⟨s₀, a, houter, ⟨-, -, hres⟩ | ⟨zInner, hinner, helem | ⟨hhash, rfl, -⟩⟩⟩ :=
    findValueCreating_eq h
  · obtain ⟨ns, ⟨r, hr, -⟩ | ⟨hr, -⟩ | ⟨-, rfl, hsame | hnone⟩⟩ := findOuter_cases houter
    · cases hr
    · cases hr
    · exact .inl hsame
    · refine .inr ⟨?_, ?_⟩
      · rw [findValue_eq, hnone, bind_none]
      · rw [findValue_eq, outer_namespaces, hnone, bind_none]
  · cases hres
  · obtain ⟨e', -, hres, -⟩ | ⟨-, hres, -⟩ | ⟨hlookup, -, rfl⟩ := findElem_cases helem
    · cases hres
    · cases hres
    · refine .inr ⟨?_, ?_⟩
      · rw [findValue_element houter hinner, hlookup]
      · rw [findValue_setHash (findOuter_outer houter) hinner, hlookup]
  · refine .inr ⟨?_, ?_⟩
    · rw [findValue_element houter hinner, hhash]
      rfl
    · rw [findValue_eq, findOuter_outer houter, hinner, bind_some, hhash]
      rfl

theorem findValueCreating_ok (hs : IdsBounded s) {r : VarId}
    (h : findValueCreating fails s zVar = (s₁, .ok r)) :
    findValue s₁ zVar = some r ∧
      (findValue s zVar = some r ∧ s₁.heap r = s.heap r ∨
        findValue s zVar = none ∧ s₁.heap r = Variable.new) := by
  obtain ⟨-, hres⟩ | ⟨s₀, a, houter, ⟨hinner, rfl, hres⟩ | ⟨zInner, hinner, helem |
    ⟨-, -, e, hres⟩⟩⟩ := findValueCreating_eq h
  · cases hres
  · cases hres
    refine ⟨by rw [findValue_eq, findOuter_outer houter, hinner, bind_some], ?_⟩
    rcases findOuter_some houter with ⟨hfound, hheap⟩ | ⟨hnone, -, hnew⟩
    · exact .inl ⟨by rw [findValue_eq, hfound, hinner, bind_some], by rw [hheap]⟩
    · exact .inr ⟨by rw [findValue_eq, hnone, bind_none], hnew⟩
  · obtain ⟨e, hlookup, hres, rfl⟩ | ⟨hlookup, hres, rfl⟩ | ⟨-, hres, -⟩ := findElem_cases helem
    · cases hres
      refine ⟨(findValue_setHash (findOuter_outer houter) hinner _).trans hlookup, .inl ⟨?_, ?_⟩⟩
      · rw [findValue_element houter hinner, hlookup]
      · obtain ⟨t, hhash⟩ : ∃ t, (s₀.heap a).pHash = some t := by
          cases hhash : (s₀.heap a).pHash with
          | none => simp [hhash] at hlookup
          | some t => exact ⟨t, rfl⟩
        rw [hhash, getD_some, setHash_self hhash]
        rcases findOuter_some houter with ⟨-, hheap⟩ | ⟨-, -, hnew⟩
        · rw [hheap]
        · rw [hnew] at hhash
          cases hhash
    · cases hres
      refine ⟨?_, .inr ⟨?_, ?_⟩⟩
      · have hplace : s₀.alloc.1.outer (varPlace 0 (analyzeVarName zVar)) = some a := by
          rw [alloc_outer, findOuter_outer houter]
        rw [findValue_setHash hplace hinner, List.lookup_cons_self]
      · rw [findValue_element houter hinner, hlookup]
      · have hlt : a < s₀.nextVar := (findOuter_bounded hs houter).outer_lt (findOuter_outer houter)
        rw [setHash_of_ne _ (Nat.ne_of_gt hlt)]
        simp [VarState.alloc]
    · cases hres
  · cases hres

end Lookup

/-! ## What a set keeps -/

/-- What can be told of a variable that exists: whether it is an array, its bytes, its length
and tags, and the value under its name in the metadata of secure variables, none if it cannot
be decrypted. -/
structure View where
  isArray : Bool
  zData : Option Bytes
  nData : ℕ × Tags
  decrypted : Option (Option Bytes)
deriving DecidableEq

def view (s : State) (zVar : Bytes) : Option View :=
  match findValue s.vars zVar with
  | none => none
  | some r =>
    if (s.vars.heap r).zData.isSome || (s.vars.heap r).pHash.isSome then
      some ⟨(s.vars.heap r).pHash.isSome, (s.vars.heap r).zData.map TString.bytes, s.nData r,
        (s.vars.paSecure zVar).map fun zPlain => if s.garbled zVar then none else some zPlain⟩
    else none

theorem view_isSome (s : State) (zVar : Bytes) : (view s zVar).isSome = existsVar s.vars zVar := by
  unfold view existsVar
  cases findValue s.vars zVar with
  | none => rfl
  | some r =>
    cases hdata : (s.vars.heap r).zData.isSome || (s.vars.heap r).pHash.isSome <;> simp [hdata]

def Backed (s : State) : Prop := ∀ r, (s.vars.heap r).zData = none → (s.nData r).1 = 0

/-- A set that returns an error leaves the variable as it was, and no set leaves a length
without data. -/
structure Keeps (s : State) (fails : Refusals) (zVar : Bytes) (v : TString) : Prop where
  view : ∀ e, (setVar fails s zVar v).2 = .error e →
    view (setVar fails s zVar v).1 zVar = view s zVar
  backed : Backed (setVar fails s zVar v).1

def Spared (s : State) (fails : Refusals) (zVar : Bytes) (v : TString) : Prop :=
  (fails .value = true → existsVar s.vars zVar = false ∧ v.bytes = []) ∧
    (isSecureVar s.vars zVar = true → fails .encrypt = false ∧ fails .sentinel = false)

def Allowed (s : State) : Op → Prop
  | .set fails zVar v => Spared s fails zVar v
  | .granted _ => True

structure Inv (s : State) : Prop where
  bounded : IdsBounded s.vars
  stale : ∀ r, (s.stale r).1 = 0

theorem Inv.backed {s : State} (h : Inv s) : Backed s := by
  intro r hr
  rw [State.nData, hr]
  exact h.stale r

section Set

variable {fails : Refusals} {s : State} {vars : VarState} {zVar : Bytes} {v : TString}
  {r : VarId}

theorem findElem_paSecure {s s₁ : VarState} {a : VarId} {pHash : Table} {zInner : Bytes}
    {res : Except Failure VarId} (h : findElem fails s a pHash zInner = (s₁, res)) :
    s₁.paSecure = s.paSecure := by
  obtain ⟨e, -, -, rfl⟩ | ⟨-, -, rfl⟩ | ⟨-, -, rfl⟩ := findElem_cases h
  · rfl
  · rfl
  · rfl

theorem findOuter_paSecure {s s₁ : VarState} {place : VarPlace} {res : Option VarId}
    (h : findOuter fails s place = (s₁, res)) : s₁.paSecure = s.paSecure := by
  obtain ⟨ns, ⟨a, -, -, rfl⟩ | ⟨-, -, rfl⟩ | ⟨-, rfl, -⟩⟩ := findOuter_cases h
  · rfl
  · exact insert_paSecure _ _ _
  · rfl

theorem findValueCreating_paSecure {s s₁ : VarState} {res : Except Failure VarId}
    (h : findValueCreating fails s zVar = (s₁, res)) : s₁.paSecure = s.paSecure := by
  obtain ⟨houter, -⟩ | ⟨s₀, a, houter, ⟨-, rfl, -⟩ | ⟨zInner, -, helem | ⟨-, rfl, -⟩⟩⟩ :=
    findValueCreating_eq h
  · exact findOuter_paSecure houter
  · exact findOuter_paSecure houter
  · exact (findElem_paSecure helem).trans (findOuter_paSecure houter)
  · exact findOuter_paSecure houter

theorem setVar_of_error {e : Failure} (h : findValueCreating fails s.vars zVar = (vars, .error e)) :
    setVar fails s zVar v = ({ s with vars := vars }, .error e) := by
  rw [setVar, h]

section

variable (h : findValueCreating fails s.vars zVar = (vars, .ok r))

include h

theorem setVar_of_array (harray : (vars.heap r).pHash.isSome = true) :
    setVar fails s zVar v =
      ({ s with vars := vars }, .error (.message "can't set variable (is array):" zVar)) := by
  rw [setVar, h]
  simp only [harray, if_true]

theorem setVar_of_value (hscalar : (vars.heap r).pHash = none) (hvalue : fails .value = true) :
    setVar fails s zVar v =
      (({ s with vars := vars } : State).withoutData r v, .error (.static "out of memory")) := by
  rw [setVar, h]
  simp only [hscalar, isSome_none, Bool.false_eq_true, if_false, hvalue, if_true]

theorem setVar_of_granted (hscalar : (vars.heap r).pHash = none) (hvalue : fails .value = false)
    (hlate : isSecureVar vars zVar = true → fails .encrypt = false ∧ fails .sentinel = false) :
    ∃ garbled, setVar fails s zVar v =
      ({ s with vars := vars.store zVar r v false 0 v.bytes, garbled := garbled }, .ok ()) := by
  rw [setVar, h]
  simp only [hscalar, isSome_none, Bool.false_eq_true, if_false, hvalue]
  by_cases hsecure : isSecureVar vars zVar = true
  · obtain ⟨hencrypt, hsentinel⟩ := hlate hsecure
    simp only [hsecure, if_true, hencrypt, hsentinel, Bool.false_eq_true, if_false]
    exact ⟨_, rfl⟩
  · simp only [hsecure, Bool.false_eq_true, if_false]
    exact ⟨s.garbled, rfl⟩

end

theorem view_of_lookup (hs : Inv s) (h : findValueCreating fails s.vars zVar = (vars, .ok r))
    (hdata : (vars.heap r).zData.isSome || (vars.heap r).pHash.isSome) :
    view { s with vars := vars } zVar = view s zVar := by
  obtain ⟨hfind, ⟨hold, hheap⟩ | ⟨-, hnew⟩⟩ := findValueCreating_ok hs.bounded h
  · simp only [view, State.nData, hfind, hold, hheap, findValueCreating_paSecure h]
  · rw [hnew] at hdata
    cases hdata

theorem view_withoutData (hfind : findValue s.vars zVar = some r)
    (hscalar : (s.vars.heap r).pHash = none) : view (s.withoutData r v) zVar = none := by
  have hsame : SameTables s.vars (s.withoutData r v).vars :=
    .update rfl rfl rfl rfl rfl rfl rfl rfl fun hdata => by cases hdata
  have hfind' : findValue (s.withoutData r v).vars zVar = some r :=
    (hsame.findValueAt 0 zVar).trans hfind
  simp only [view, hfind']
  simp [State.withoutData, hscalar]

theorem keeps_of_spared (hs : Inv s) (hspared : Spared s fails zVar v) :
    Keeps s fails zVar v ∧ Inv (setVar fails s zVar v).1 := by
  suffices hset : (∀ e, (setVar fails s zVar v).2 = .error e →
      view (setVar fails s zVar v).1 zVar = view s zVar) ∧ Inv (setVar fails s zVar v).1 from
    ⟨⟨hset.1, hset.2.backed⟩, hset.2⟩
  rcases hlookup : findValueCreating fails s.vars zVar with ⟨vars, e | r⟩
  · have hbounded := findValueCreating_bounded hs.bounded hlookup
    rw [setVar_of_error hlookup]
    refine ⟨fun _ _ => ?_, hbounded, hs.stale⟩
    rcases findValueCreating_error hlookup with rfl | ⟨hnone, hnone'⟩
    · rfl
    · simp only [view, hnone, hnone']
  · have hbounded := findValueCreating_bounded hs.bounded hlookup
    have hpaSecure := findValueCreating_paSecure hlookup
    by_cases harray : (vars.heap r).pHash.isSome = true
    · rw [setVar_of_array hlookup harray]
      exact ⟨fun _ _ => view_of_lookup hs hlookup (by rw [harray, Bool.or_true]),
        hbounded, hs.stale⟩
    · have hscalar : (vars.heap r).pHash = none := by simpa using harray
      by_cases hvalue : fails .value = true
      · obtain ⟨habsent, hempty⟩ := hspared.1 hvalue
        rw [setVar_of_value hlookup hscalar hvalue]
        refine ⟨fun _ _ => ?_, ?_, fun a => ?_⟩
        · have hview := view_isSome s zVar
          rw [habsent, isSome_eq_false_iff, isNone_iff_eq_none] at hview
          rw [hview]
          exact view_withoutData (findValueCreating_ok hs.bounded hlookup).1 hscalar
        · refine hbounded.sameTables ?_
          exact .update rfl rfl rfl rfl rfl rfl rfl rfl fun hdata => by cases hdata
        · by_cases ha : a = r
          · subst ha
            simp [State.withoutData, hempty]
          · simpa [State.withoutData, ha] using hs.stale a
      · have hlate : isSecureVar vars zVar = true →
            fails .encrypt = false ∧ fails .sentinel = false := by
          intro hsecure
          exact hspared.2 (by rwa [isSecureVar, ← hpaSecure])
        obtain ⟨garbled, hset⟩ := setVar_of_granted (v := v) hlookup hscalar
          (Bool.eq_false_of_not_eq_true hvalue) hlate
        rw [hset]
        exact ⟨fun e he => (by cases he),
          hbounded.sameTables (store_sameTables hscalar _ _ _ _ _), hs.stale⟩

theorem step_inv (hs : Inv s) {op : Op} (hop : Allowed s op) : Inv (step s op) := by
  cases op with
  | set fails zVar v => exact (keeps_of_spared hs hop).2
  | granted op => exact ⟨hs.bounded.varStep op, hs.stale⟩

end Set

theorem inv_init : Inv State.init :=
  ⟨idsBounded_of_reachable .init, fun _ => rfl⟩

/-- In a run whose sets are spared, no record has a length without data, and a set that is
spared and fails leaves its variable as it was. -/
theorem setVar_keeps {s : State} (hs : ReachableBy step Allowed State.init s) :
    Backed s ∧ ∀ fails zVar v, Spared s fails zVar v → Keeps s fails zVar v := by
  have hinv : Inv s := hs.invariant inv_init fun _ _ hinv hop => step_inv hinv hop
  exact ⟨hinv.backed, fun fails zVar v hspared => (keeps_of_spared hinv hspared).1⟩

/-- `set x old`, and then the value of `set x new` is refused. -/
def setOnce : State :=
  step State.init (Op.set (fun _ => false) (ascii "x") (TString.plain (ascii "old")))

def valueRefused : Refusals := fun site => site == .value

theorem setVar_keeps_setOnce :
    Backed setOnce ∧ ∀ fails zVar v, Spared setOnce fails zVar v → Keeps setOnce fails zVar v :=
  setVar_keeps (ReachableBy.step (Op.set _ _ _) .init ⟨fun h => (by cases h), fun _ => ⟨rfl, rfl⟩⟩)

/-- The old value is gone, the variable does not exist, and its record has the length of the
value that it did not get. -/
theorem not_keeps_setOnce :
    Reachable step State.init setOnce ∧
    view setOnce (ascii "x") =
      some ⟨false, some (ascii "old"), (3, Tags.clean), none⟩ ∧
    (setVar valueRefused setOnce (ascii "x") (TString.plain (ascii "newer"))).2 =
      .error (.static "out of memory") ∧
    view (setVar valueRefused setOnce (ascii "x") (TString.plain (ascii "newer"))).1 (ascii "x") =
      none ∧
    ¬Backed (setVar valueRefused setOnce (ascii "x") (TString.plain (ascii "newer"))).1 ∧
    ¬Keeps setOnce valueRefused (ascii "x") (TString.plain (ascii "newer")) := by
  have hbacked : ¬Backed
      (setVar valueRefused setOnce (ascii "x") (TString.plain (ascii "newer"))).1 :=
    fun h => absurd (h 0 (by decide)) (by decide)
  exact ⟨.step _ .init trivial, by decide, by decide, by decide, hbacked,
    fun h => hbacked h.backed⟩

end Setter

end Th8
