import Mathlib
import Th8.Variables.ArraySearch

/-!
# The epochs of the arrays

An epoch only grows, and every element table gets a generation of its own.  What touches an
array moves its epoch on, and everything else leaves the array as it is.
-/

namespace Th8

open Option Nat

open Function (update update_of_ne update_self)

namespace ArraySearch

variable {seed : HashSeed}

theorem update_some_cases {α β : Type} [DecidableEq α] {f : α → Option β} {a b : α} {x y : β}
    (h : update f a (some x) b = some y) : b = a ∧ x = y ∨ b ≠ a ∧ f b = some y := by
  by_cases hb : b = a
  · subst hb
    rw [update_self] at h
    exact .inl ⟨rfl, some.inj h⟩
  · rw [update_of_ne hb] at h
    exact .inr ⟨hb, h⟩

structure StoreInv (seed : HashSeed) (s : Store) : Prop where
  table : ∀ r v tid, s.vars r = some v → v.pHash = some tid → ∃ t, s.tables tid = some t
  chained : ∀ tid t, s.tables tid = some t → HashTable.WellChained seed t
  owner : ∀ r r' v v' tid, s.vars r = some v → s.vars r' = some v' → v.pHash = some tid →
    v'.pHash = some tid → r = r'
  generation : ∀ r r' v v', s.vars r = some v → s.vars r' = some v' → v.pHash.isSome →
    v'.pHash.isSome → v.nGeneration = v'.nGeneration → r = r'
  generation_le : ∀ r v, s.vars r = some v → v.nGeneration ≤ s.iArrayHashGeneration

/-- Between two stores no epoch goes back, and a table that is new has a new generation. -/
structure Evolves (s s' : Store) : Prop where
  counter : s.iArrayHashGeneration ≤ s'.iArrayHashGeneration
  vars : ∀ r v', s'.vars r = some v' → v'.pHash.isSome →
    (∃ v, s.vars r = some v ∧ v.pHash.isSome ∧ v.nGeneration = v'.nGeneration ∧
      v.nEpoch ≤ v'.nEpoch) ∨ s.iArrayHashGeneration < v'.nGeneration

theorem Evolves.refl (s : Store) : Evolves s s :=
  ⟨le_rfl, fun _ v' hv' hhash => .inl ⟨v', hv', hhash, rfl, le_rfl⟩⟩

variable {s s' s'' : Store}

theorem Evolves.trans (h : Evolves s s') (h' : Evolves s' s'') : Evolves s s'' := by
  refine ⟨h.counter.trans h'.counter, fun r v'' hv'' hhash => ?_⟩
  obtain ⟨v', hv', hhash', hgen', hepoch'⟩ | hnew := h'.vars r v'' hv'' hhash
  · obtain ⟨v, hv, hhash, hgen, hepoch⟩ | hnew := h.vars r v' hv' hhash'
    · exact .inl ⟨v, hv, hhash, hgen.trans hgen', hepoch.trans hepoch'⟩
    · exact .inr (hgen' ▸ hnew)
  · exact .inr (lt_of_le_of_lt h.counter hnew)

def SameArray (s s' : Store) (r : VarId) : Prop :=
  s'.vars r = s.vars r ∧
    ∀ v tid, s.vars r = some v → v.pHash = some tid → s'.tables tid = s.tables tid

theorem SameArray.refl (s : Store) (r : VarId) : SameArray s s r := ⟨rfl, fun _ _ _ _ => rfl⟩

variable {r : VarId}

theorem SameArray.trans (h : SameArray s s' r) (h' : SameArray s' s'' r) : SameArray s s'' r := by
  refine ⟨h'.1.trans h.1, fun v tid hv htid => ?_⟩
  rw [h'.2 v tid (h.1 ▸ hv) htid, h.2 v tid hv htid]

/-! ### A new table -/

section NewHash

variable {s : Store} {r : VarId} {v : ArrayVar} {tid : ℕ}

theorem newHash_inv (hs : StoreInv seed s) (hfree : s.tables tid = none) :
    StoreInv seed (s.newHash r v tid) := by
  have hunused : ∀ r' v', s.vars r' = some v' → v'.pHash ≠ some tid := by
    intro r' v' hv' htid
    obtain ⟨t, ht⟩ := hs.table r' v' tid hv' htid
    rw [hfree] at ht
    cases ht
  constructor
  · intro r' v' tid' hv' htid'
    by_cases hid : tid' = tid
    · exact ⟨.new, by rw [hid]; exact update_self ..⟩
    · obtain ⟨-, rfl⟩ | ⟨-, hv'⟩ := update_some_cases hv'
      · exact absurd (some.inj htid').symm hid
      · obtain ⟨t, ht⟩ := hs.table r' v' tid' hv' htid'
        exact ⟨t, by rw [← ht]; exact update_of_ne hid ..⟩
  · intro tid' t ht
    obtain ⟨-, rfl⟩ | ⟨-, ht⟩ := update_some_cases ht
    · exact .new
    · exact hs.chained tid' t ht
  · intro r₁ r₂ v₁ v₂ tid' h₁ h₂ htid₁ htid₂
    obtain ⟨rfl, rfl⟩ | ⟨-, hw₁⟩ := update_some_cases h₁
    · obtain ⟨rfl, -⟩ | ⟨-, hw₂⟩ := update_some_cases h₂
      · rfl
      · exact absurd (htid₂.trans htid₁.symm) (hunused _ _ hw₂)
    · obtain ⟨rfl, rfl⟩ | ⟨-, hw₂⟩ := update_some_cases h₂
      · exact absurd (htid₁.trans htid₂.symm) (hunused _ _ hw₁)
      · exact hs.owner r₁ r₂ v₁ v₂ tid' hw₁ hw₂ htid₁ htid₂
  · intro r₁ r₂ v₁ v₂ h₁ h₂ hhash₁ hhash₂ hgen
    obtain ⟨rfl, rfl⟩ | ⟨-, hw₁⟩ := update_some_cases h₁
    · obtain ⟨rfl, -⟩ | ⟨-, hw₂⟩ := update_some_cases h₂
      · rfl
      · have hle := hs.generation_le r₂ v₂ hw₂
        simp only at hgen
        omega
    · have hle := hs.generation_le r₁ v₁ hw₁
      obtain ⟨rfl, rfl⟩ | ⟨-, hw₂⟩ := update_some_cases h₂
      · simp only at hgen
        omega
      · exact hs.generation r₁ r₂ v₁ v₂ hw₁ hw₂ hhash₁ hhash₂ hgen
  · intro r' v' hv'
    obtain ⟨-, rfl⟩ | ⟨-, hv'⟩ := update_some_cases hv'
    · exact le_rfl
    · exact (hs.generation_le r' v' hv').trans (le_succ _)

theorem newHash_evolves : Evolves s (s.newHash r v tid) := by
  refine ⟨le_succ _, fun r' v' hv' hhash => ?_⟩
  by_cases hr : r' = r
  · subst hr
    simp only [Store.newHash, update_self, some.injEq] at hv'
    subst hv'
    exact .inr (lt_succ_self _)
  · simp only [Store.newHash, update_of_ne hr] at hv'
    exact .inl ⟨v', hv', hhash, rfl, le_rfl⟩

theorem newHash_same (hs : StoreInv seed s) (hfree : s.tables tid = none) {r' : VarId}
    (hr : r' ≠ r) : SameArray s (s.newHash r v tid) r' := by
  refine ⟨by simp [Store.newHash, update_of_ne hr], fun v' tid' hv' htid' => ?_⟩
  have hne : tid' ≠ tid := by
    rintro rfl
    obtain ⟨t, ht⟩ := hs.table r' v' _ hv' htid'
    rw [hfree] at ht
    cases ht
  simp [Store.newHash, update_of_ne hne]

end NewHash

section ChangeTable

variable {s : Store} {r : VarId} {v : ArrayVar} {tid : ℕ} {t : HashTable VarId}

theorem changeTable_inv (hs : StoreInv seed s) (hv : s.vars r = some v)
    (ht : HashTable.WellChained seed t) : StoreInv seed (s.changeTable r v tid t) := by
  -- a record keeps its table and its generation
  have hback : ∀ {r' v'}, (s.changeTable r v tid t).vars r' = some v' →
      ∃ w, s.vars r' = some w ∧ w.pHash = v'.pHash ∧ w.nGeneration = v'.nGeneration := by
    intro r' v' hv'
    obtain ⟨rfl, rfl⟩ | ⟨-, hv'⟩ := update_some_cases hv'
    · exact ⟨v, hv, rfl, rfl⟩
    · exact ⟨v', hv', rfl, rfl⟩
  constructor
  · intro r' v' tid' hv' htid'
    obtain ⟨w, hw, hhash, -⟩ := hback hv'
    by_cases hid : tid' = tid
    · exact ⟨t, by rw [hid]; exact update_self ..⟩
    · obtain ⟨t', ht'⟩ := hs.table r' w tid' hw (hhash.trans htid')
      exact ⟨t', by rw [← ht']; exact update_of_ne hid ..⟩
  · intro tid' t' ht'
    obtain ⟨-, rfl⟩ | ⟨-, ht'⟩ := update_some_cases ht'
    · exact ht
    · exact hs.chained tid' t' ht'
  · intro r₁ r₂ v₁ v₂ tid' h₁ h₂ htid₁ htid₂
    obtain ⟨w₁, hw₁, hhash₁, -⟩ := hback h₁
    obtain ⟨w₂, hw₂, hhash₂, -⟩ := hback h₂
    exact hs.owner r₁ r₂ w₁ w₂ tid' hw₁ hw₂ (hhash₁.trans htid₁) (hhash₂.trans htid₂)
  · intro r₁ r₂ v₁ v₂ h₁ h₂ hsome₁ hsome₂ hgen
    obtain ⟨w₁, hw₁, hhash₁, hgen₁⟩ := hback h₁
    obtain ⟨w₂, hw₂, hhash₂, hgen₂⟩ := hback h₂
    exact hs.generation r₁ r₂ w₁ w₂ hw₁ hw₂ (hhash₁ ▸ hsome₁) (hhash₂ ▸ hsome₂)
      (hgen₁.trans (hgen.trans hgen₂.symm))
  · intro r' v' hv'
    obtain ⟨w, hw, -, hgen⟩ := hback hv'
    exact hgen ▸ hs.generation_le r' w hw

theorem changeTable_evolves (hv : s.vars r = some v) : Evolves s (s.changeTable r v tid t) := by
  refine ⟨le_rfl, fun r' v' hv' hhash => .inl ?_⟩
  by_cases hr : r' = r
  · subst hr
    simp only [Store.changeTable, update_self, some.injEq] at hv'
    subst hv'
    exact ⟨v, hv, hhash, rfl, le_succ _⟩
  · simp only [Store.changeTable, update_of_ne hr] at hv'
    exact ⟨v', hv', hhash, rfl, le_rfl⟩

theorem changeTable_same (hs : StoreInv seed s) (hv : s.vars r = some v)
    (htid : v.pHash = some tid) {r' : VarId} (hr : r' ≠ r) :
    SameArray s (s.changeTable r v tid t) r' := by
  refine ⟨by simp [Store.changeTable, update_of_ne hr], fun v' tid' hv' htid' => ?_⟩
  have hne : tid' ≠ tid := by
    rintro rfl
    exact hr (hs.owner r' r v' v _ hv' hv htid' htid)
  simp [Store.changeTable, update_of_ne hne]

end ChangeTable

/-! ### The operations -/

structure Spares (seed : HashSeed) (s s' : Store) (r : VarId) : Prop where
  inv : StoreInv seed s'
  evolves : Evolves s s'
  same : ∀ r', r' ≠ r → SameArray s s' r'

theorem Spares.refl (hs : StoreInv seed s) (r : VarId) : Spares seed s s r :=
  ⟨hs, .refl s, fun r' _ => .refl s r'⟩

theorem Spares.trans (h : Spares seed s s' r) (h' : Spares seed s' s'' r) : Spares seed s s'' r :=
  ⟨h'.inv, h.evolves.trans h'.evolves, fun r' hr => (h.same r' hr).trans (h'.same r' hr)⟩

variable {tid : ℕ}

theorem changeTable_spares {v : ArrayVar} {t : HashTable VarId} (hs : StoreInv seed s)
    (hv : s.vars r = some v) (htid : v.pHash = some tid) (ht : HashTable.WellChained seed t) :
    Spares seed s (s.changeTable r v tid t) r :=
  ⟨changeTable_inv hs hv ht, changeTable_evolves hv, fun _ hr => changeTable_same hs hv htid hr⟩

variable {zInner : Bytes}

theorem createEntry_cases {id : ℕ} {e : VarId} {v : ArrayVar} {t : HashTable VarId}
    (hs : StoreInv seed s) (hv : s.vars r = some v) (htid : v.pHash = some tid)
    (ht : s.tables tid = some t) (hfresh : ∀ i, ∀ p ∈ t.aBucket i, p.id ≠ id) :
    (s.createEntry seed r zInner id e = s ∧ zInner ∉ t.keys ∧
        HashTable.insertGranted true true zInner = false) ∨
      (zInner ∈ t.keys ∨ HashTable.insertGranted true true zInner = true) ∧
        ∃ t', HashTable.WellChained seed t' ∧
          s.createEntry seed r zInner id e = s.changeTable r v tid t' := by
  have hchained := hs.chained tid t ht
  have hinsert := hchained.insert true true zInner hfresh
  have hnone := hchained.insert_eq_none true true zInner id
  unfold Store.createEntry
  simp only [hv, htid, ht]
  generalize t.hashFind seed zInner (.insert true true id) = found at hinsert hnone
  obtain ⟨t', _ | pEntry⟩ := found
  · exact .inl ⟨rfl, hnone.mp rfl⟩
  · refine .inr ⟨?_, _, ?_, rfl⟩
    · by_contra hneither
      simp only [not_or, Bool.not_eq_true] at hneither
      cases hnone.mpr hneither
    split_ifs
    · exact hinsert.setData _ _
    · exact hinsert

theorem createElement_spares {id : ℕ} {e : VarId} (hs : StoreInv seed s)
    (hgranted : StoreOp.Granted s (.write r zInner tid id e)) :
    Spares seed s (s.createElement seed r zInner tid id e) r := by
  obtain ⟨hfree, hfresh⟩ := hgranted
  have hentry : ∀ {s' : Store} {v : ArrayVar} {tid' : ℕ}, StoreInv seed s' →
      s'.vars r = some v → v.pHash = some tid' →
      (∀ t i, s'.tables tid' = some t → ∀ p ∈ t.aBucket i, p.id ≠ id) →
      Spares seed s' (s'.createEntry seed r zInner id e) r := by
    intro s' v tid' hs' hv htid hfresh'
    obtain ⟨t, ht⟩ := hs'.table r v tid' hv htid
    obtain ⟨hsame, -⟩ | ⟨-, t', ht', hchange⟩ :=
      createEntry_cases (e := e) hs' hv htid ht fun i => hfresh' t i ht
    · rw [hsame]
      exact .refl hs' r
    · rw [hchange]
      exact changeTable_spares hs' hv htid ht'
  unfold Store.createElement
  cases hv : s.vars r with
  | none => exact .refl hs r
  | some v =>
    simp only
    cases htid : v.pHash with
    | some tid' =>
      simp only [isNone_some, Bool.false_eq_true, if_false]
      exact hentry hs hv htid fun t i => hfresh tid' t i
    | none =>
      simp only [isNone_none, if_true]
      have hfree' := hfree v hv htid
      have hnew : Spares seed s (s.newHash r v tid) r :=
        ⟨newHash_inv hs hfree', newHash_evolves, fun _ hr => newHash_same hs hfree' hr⟩
      refine hnew.trans (hentry hnew.inv (update_self ..) rfl fun t i ht p hp => ?_)
      have hempty : HashTable.new = t := by
        simpa [Store.newHash] using ht
      rw [← hempty] at hp
      exact absurd hp List.not_mem_nil

theorem unsetElement_spares (hs : StoreInv seed s) :
    Spares seed s (s.unsetElement seed r zInner) r := by
  unfold Store.unsetElement
  cases hv : s.vars r with
  | none => exact .refl hs r
  | some v =>
    cases htid : v.pHash with
    | none => simp only [htid]; exact .refl hs r
    | some tid =>
      obtain ⟨t, ht⟩ := hs.table r v tid hv htid
      simp only [htid, ht]
      split_ifs
      · exact .refl hs r
      · exact changeTable_spares hs hv htid ((hs.chained tid t ht).delete zInner)

section FreeVariable

variable {s : Store} {r : VarId} {v : ArrayVar}

theorem freeVariable_vars (hv : s.vars r = some v) {r' : VarId} {v' : ArrayVar} :
    (s.freeVariable r).vars r' = some v' ↔ r' ≠ r ∧ s.vars r' = some v' := by
  simp only [Store.freeVariable, hv]
  by_cases hr : r' = r
  · simp [hr]
  · simp [hr]

theorem freeVariable_tables (hv : s.vars r = some v) (tid : ℕ) :
    (s.freeVariable r).tables tid = if v.pHash = some tid then none else s.tables tid := by
  simp only [Store.freeVariable, hv]
  cases hhash : v.pHash with
  | none => simp
  | some tid' => by_cases htid : tid = tid' <;> simp [htid, Ne.symm, eq_comm]

theorem freeVariable_spares (hs : StoreInv seed s) : Spares seed s (s.freeVariable r) r := by
  cases hv : s.vars r with
  | none =>
    have hnone : s.freeVariable r = s := by simp only [Store.freeVariable, hv]
    rw [hnone]
    exact .refl hs r
  | some v =>
    have hkept : ∀ {r' v' tid}, r' ≠ r → s.vars r' = some v' → v'.pHash = some tid →
        (s.freeVariable r).tables tid = s.tables tid := by
      intro r' v' tid hr hv' htid'
      rw [freeVariable_tables hv, if_neg]
      intro htid
      exact hr (hs.owner r' r v' v tid hv' hv htid' htid)
    have hcounter : (s.freeVariable r).iArrayHashGeneration = s.iArrayHashGeneration := by
      simp only [Store.freeVariable, hv]
    refine ⟨⟨?_, ?_, ?_, ?_, ?_⟩, ⟨hcounter.ge, ?_⟩, ?_⟩
    · intro r' v' tid hv' htid
      obtain ⟨hr, hv'⟩ := (freeVariable_vars hv).mp hv'
      obtain ⟨t, ht⟩ := hs.table r' v' tid hv' htid
      exact ⟨t, (hkept hr hv' htid).trans ht⟩
    · intro tid t ht
      rw [freeVariable_tables hv] at ht
      split_ifs at ht
      exact hs.chained tid t ht
    · intro r₁ r₂ v₁ v₂ tid h₁ h₂
      rw [freeVariable_vars hv] at h₁ h₂
      exact hs.owner r₁ r₂ v₁ v₂ tid h₁.2 h₂.2
    · intro r₁ r₂ v₁ v₂ h₁ h₂
      rw [freeVariable_vars hv] at h₁ h₂
      exact hs.generation r₁ r₂ v₁ v₂ h₁.2 h₂.2
    · intro r' v' hv'
      rw [freeVariable_vars hv] at hv'
      exact hcounter ▸ hs.generation_le r' v' hv'.2
    · intro r' v' hv' hhash
      rw [freeVariable_vars hv] at hv'
      exact .inl ⟨v', hv'.2, hhash, rfl, le_rfl⟩
    · intro r' hr
      refine ⟨?_, fun v' tid hv' htid => hkept hr hv' htid⟩
      ext v'
      rw [freeVariable_vars hv]
      simp [hr]

end FreeVariable

theorem alloc_spares (hs : StoreInv seed s) :
    Spares seed s { s with vars := update s.vars r (some ⟨none, 0, 0⟩) } r := by
  have hvars : ∀ {r' v'}, update s.vars r (some ⟨none, 0, 0⟩) r' = some v' →
      v'.pHash.isSome → s.vars r' = some v' := by
    intro r' v' hv' hhash
    obtain ⟨-, rfl⟩ | ⟨-, hv'⟩ := update_some_cases hv'
    · cases hhash
    · exact hv'
  refine ⟨⟨?_, hs.chained, ?_, ?_, ?_⟩, ⟨le_rfl, ?_⟩, ?_⟩
  · intro r' v' tid hv' htid
    exact hs.table r' v' tid (hvars hv' (by simp [htid])) htid
  · intro r₁ r₂ v₁ v₂ tid h₁ h₂ htid₁ htid₂
    exact hs.owner r₁ r₂ v₁ v₂ tid (hvars h₁ (by simp [htid₁])) (hvars h₂ (by simp [htid₂]))
      htid₁ htid₂
  · intro r₁ r₂ v₁ v₂ h₁ h₂ hhash₁ hhash₂
    exact hs.generation r₁ r₂ v₁ v₂ (hvars h₁ hhash₁) (hvars h₂ hhash₂) hhash₁ hhash₂
  · intro r' v' hv'
    obtain ⟨-, rfl⟩ | ⟨-, hv'⟩ := update_some_cases hv'
    · exact zero_le _
    · exact hs.generation_le r' v' hv'
  · intro r' v' hv' hhash
    exact .inl ⟨v', hvars hv' hhash, hhash, rfl, le_rfl⟩
  · intro r' hr
    exact ⟨update_of_ne hr .., fun _ _ _ _ => rfl⟩

def StoreOp.record : StoreOp → Option VarId
  | .rebind .. => none
  | .alloc r => some r
  | .free r => some r
  | .write r .. => some r
  | .unset r _ => some r

variable {op : StoreOp}

section

variable (hs : StoreInv seed s)

include hs

section

variable (hop : op.Granted s)

include hop

theorem storeStep_spares (r : VarId) (hr : ∀ r', op.record = some r' → r' = r) :
    Spares seed s (storeStep seed s op) r := by
  cases op with
  | rebind frame globalFrame =>
    exact ⟨⟨hs.table, hs.chained, hs.owner, hs.generation, hs.generation_le⟩,
      ⟨le_rfl, fun _ v' hv' hhash => .inl ⟨v', hv', hhash, rfl, le_rfl⟩⟩,
      fun _ _ => ⟨rfl, fun _ _ _ _ => rfl⟩⟩
  | alloc r' =>
    obtain rfl := hr r' rfl
    exact alloc_spares hs
  | free r' =>
    obtain rfl := hr r' rfl
    exact freeVariable_spares hs
  | write r' zInner tid id e =>
    obtain rfl := hr r' rfl
    exact createElement_spares hs hop
  | unset r' zInner =>
    obtain rfl := hr r' rfl
    exact unsetElement_spares hs

theorem exists_storeStep_spares : ∃ r, Spares seed s (storeStep seed s op) r := by
  refine ⟨op.record.getD 0, storeStep_spares hs hop _ fun r' hr' => ?_⟩
  rw [hr']
  rfl

theorem storeStep_inv : StoreInv seed (storeStep seed s op) := by
  obtain ⟨r, hspares⟩ := exists_storeStep_spares hs hop
  exact hspares.inv

theorem storeStep_evolves : Evolves s (storeStep seed s op) := by
  obtain ⟨r, hspares⟩ := exists_storeStep_spares hs hop
  exact hspares.evolves

end

end

/-! ### An array that is changed -/

/-- The operation sets or unsets an element of the array, or frees it.  A new element for
which no memory is granted is not set, and neither is one unset that does not exist. -/
def StoreOp.Touches (s : Store) (r : VarId) : StoreOp → Prop
  | .rebind .. => False
  | .alloc _ => False
  | .free r' => r' = r
  | .write r' zInner .. =>
    r' = r ∧ (zInner ∈ s.elements r ∨ HashTable.insertGranted true true zInner = true)
  | .unset r' zInner => r' = r ∧ zInner ∈ s.elements r

section Touches

variable {s : Store} {r : VarId} {v : ArrayVar} {tid : ℕ}

theorem elements_eq {t : HashTable VarId} (hv : s.vars r = some v) (htid : v.pHash = some tid)
    (ht : s.tables tid = some t) : s.elements r = t.keys := by
  simp [Store.elements, hv, htid, ht]

theorem elements_nodup (hs : StoreInv seed s) (r : VarId) : (s.elements r).Nodup := by
  unfold Store.elements
  cases hv : (s.vars r).bind fun v => v.pHash.bind s.tables with
  | none => exact List.nodup_nil
  | some t =>
    obtain ⟨v, -, ht⟩ := bind_eq_some_iff.mp hv
    obtain ⟨tid, -, ht⟩ := bind_eq_some_iff.mp ht
    exact (hs.chained tid t ht).keys_nodup

theorem createElement_eq (hv : s.vars r = some v) (htid : v.pHash = some tid) (zInner : Bytes)
    (tid' id : ℕ) (e : VarId) :
    s.createElement seed r zInner tid' id e = s.createEntry seed r zInner id e := by
  simp [Store.createElement, hv, htid]

theorem unsetElement_eq {t : HashTable VarId} (hs : StoreInv seed s) (hv : s.vars r = some v)
    (htid : v.pHash = some tid) (ht : s.tables tid = some t) (zInner : Bytes) :
    s.unsetElement seed r zInner =
      if zInner ∈ s.elements r then s.changeTable r v tid (t.hashFind seed zInner .delete).1
      else s := by
  have hfind := (hs.chained tid t ht).find_isNone (k := zInner)
  rw [elements_eq hv htid ht]
  simp only [Store.unsetElement, hv, htid, ht, hfind]
  by_cases hmem : zInner ∈ t.keys <;> simp [hmem]

theorem storeStep_same (hs : StoreInv seed s) {op : StoreOp} (hop : op.Granted s)
    (hv : s.vars r = some v) (htid : v.pHash = some tid) (hop' : ¬op.Touches s r) :
    SameArray s (storeStep seed s op) r := by
  by_cases hr : op.record = some r
  · obtain ⟨t, ht⟩ := hs.table r v tid hv htid
    cases op with
    | rebind frame globalFrame => cases hr
    | alloc r' =>
      obtain rfl := some.inj hr
      have hnone : s.vars r' = none := hop
      rw [hnone] at hv
      cases hv
    | free r' => exact absurd (some.inj hr) hop'
    | write r' zInner tid' id e =>
      obtain rfl := some.inj hr
      have hfresh : ∀ i, ∀ p ∈ t.aBucket i, p.id ≠ id := fun i => hop.2 tid t i ht
      have hsame : storeStep seed s (.write r' zInner tid' id e) = s := by
        rw [storeStep, createElement_eq hv htid]
        obtain ⟨hsame, -⟩ | ⟨htouch, -⟩ := createEntry_cases (e := e) hs hv htid ht hfresh
        · exact hsame
        · rw [← elements_eq hv htid ht] at htouch
          exact absurd ⟨rfl, htouch⟩ hop'
      rw [hsame]
      exact .refl s r'
    | unset r' zInner =>
      obtain rfl := some.inj hr
      have hsame : storeStep seed s (.unset r' zInner) = s := by
        rw [storeStep, unsetElement_eq hs hv htid ht, if_neg fun hmem => hop' ⟨rfl, hmem⟩]
      rw [hsame]
      exact .refl s r'
  · obtain ⟨r', hr'⟩ : ∃ r', r' ≠ r ∧ ∀ r'', op.record = some r'' → r'' = r' := by
      cases hrec : op.record with
      | none => exact ⟨r + 1, succ_ne_self r, fun _ h => nomatch h⟩
      | some r' =>
        exact ⟨r', fun h => hr (h ▸ hrec), fun r'' hr'' => (some.inj hr'').symm⟩
    exact (storeStep_spares hs hop r' hr'.2).same r hr'.1.symm

theorem storeStep_epoch (hs : StoreInv seed s) {op : StoreOp} (hop : op.Granted s)
    (hv : s.vars r = some v) (htid : v.pHash = some tid) (htouch : op.Touches s r)
    {v' : ArrayVar} (hv' : (storeStep seed s op).vars r = some v') : v.nEpoch < v'.nEpoch := by
  obtain ⟨t, ht⟩ := hs.table r v tid hv htid
  have hchange : ∀ t', (s.changeTable r v tid t').vars r = some v' → v.nEpoch < v'.nEpoch := by
    intro t' hv'
    obtain ⟨-, rfl⟩ | ⟨hr, -⟩ := update_some_cases hv'
    · exact lt_succ_self _
    · exact absurd rfl hr
  cases op with
  | rebind frame globalFrame => exact htouch.elim
  | alloc r' => exact htouch.elim
  | free r' =>
    obtain rfl : r' = r := htouch
    exact absurd rfl ((freeVariable_vars hv).mp hv').1
  | write r' zInner tid' id e =>
    obtain ⟨rfl, hwrite⟩ := htouch
    rw [elements_eq hv htid ht] at hwrite
    rw [storeStep, createElement_eq hv htid] at hv'
    obtain ⟨-, hmem, hgranted⟩ | ⟨-, t', -, hchanged⟩ :=
      createEntry_cases (e := e) hs hv htid ht fun i => hop.2 tid t i ht
    · obtain h | h := hwrite
      · exact absurd h hmem
      · rw [hgranted] at h
        cases h
    · rw [hchanged] at hv'
      exact hchange t' hv'
  | unset r' zInner =>
    obtain ⟨rfl, hmem⟩ := htouch
    rw [storeStep, unsetElement_eq hs hv htid ht, if_pos hmem] at hv'
    exact hchange _ hv'

end Touches

end ArraySearch
end Th8
