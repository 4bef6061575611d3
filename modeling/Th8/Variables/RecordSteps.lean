import Th8.Variables.Records
import Th8.Support.Custody

/-!
# What the operations do to the tables

The entries before and after an operation are compared by how often they lead to each
record.  The keys of every table are distinct, so that what is removed by its key is one
entry.
-/

namespace Th8

open Support List
open VarState (alloc frames table)
open Function (update update_of_ne update_self)

/-! ## Entries -/

variable {t : Table}

theorem count_values_filter_key {k : Bytes} {r : VarId} (hkeys : (t.map Prod.fst).Nodup)
    (hlookup : t.lookup k = some r) (n : VarId) :
    (r :: (t.filter fun p => p.1 != k).map Prod.snd).count n = (t.map Prod.snd).count n := by
  induction t with
  | nil => cases hlookup
  | cons p t ih =>
    obtain ⟨k', r'⟩ := p
    obtain ⟨hk', hkeys⟩ := nodup_cons.mp hkeys
    rw [lookup_cons] at hlookup
    by_cases hkk : k = k'
    · subst hkk
      rw [beq_self_eq_true] at hlookup
      cases hlookup
      have hrest : t.filter (fun p => p.1 != k) = t := by
        refine filter_eq_self.mpr fun p hp => ?_
        refine bne_iff_ne.mpr ?_
        rintro rfl
        exact hk' (mem_map.mpr ⟨p, hp, rfl⟩)
      rw [filter_cons_of_neg (by simp), hrest, map_cons]
    · rw [beq_false_of_ne hkk] at hlookup
      have hih := ih hkeys hlookup
      rw [filter_cons_of_pos (by simpa using Ne.symm hkk)]
      simp only [map_cons, count_cons] at hih ⊢
      omega

theorem count_values_filter_record (ts : List Table) (r n : VarId) :
    ((ts.flatten.map Prod.snd).filter (· == r)).count n +
        ((ts.map (List.filter fun p => p.2 != r)).flatMap (List.map Prod.snd)).count n =
      (ts.flatMap (List.map Prod.snd)).count n := by
  have hone : ∀ t : Table, ((t.map Prod.snd).filter (· == r)).count n +
      ((t.filter fun p => p.2 != r).map Prod.snd).count n = (t.map Prod.snd).count n := by
    intro t
    induction t with
    | nil => rfl
    | cons p t ih =>
      by_cases hp : p.2 = r
      · simp only [map_cons, filter_cons, hp, beq_self_eq_true, if_true,
          bne_self_eq_false, Bool.false_eq_true, if_false, count_cons]
        omega
      · simp only [map_cons, filter_cons, beq_false_of_ne hp, bne_iff_ne.mpr hp,
          Bool.false_eq_true, if_false, if_true, count_cons]
        omega
  induction ts with
  | nil => rfl
  | cons t ts ih =>
    have ht := hone t
    simp only [flatten_cons, map_append, filter_append, map_cons,
      flatMap_cons, count_append] at ih ⊢
    omega

theorem count_flatMap_dedup_append {α : Type} [DecidableEq α] {l₀ l : List α}
    {f : α → List ℕ} (hnil : ∀ a, a ∉ l → f a = []) (n : ℕ) :
    ((l₀ ++ l).dedup.flatMap f).count n = (l.dedup.flatMap f).count n := by
  induction l₀ with
  | nil => rfl
  | cons a l₀ ih =>
    rw [cons_append]
    by_cases ha : a ∈ l₀ ++ l
    · rw [dedup_cons_of_mem ha, ih]
    · have hl : a ∉ l := fun h => ha (mem_append_right _ h)
      rw [dedup_cons_of_notMem ha, flatMap_cons, hnil a hl, nil_append, ih]

variable {s : RecState} {place : VarPlace}

theorem count_entries_insert {a : VarId} (hns : s.vars.HasNs place) (n : VarId) :
    ({ s with vars := s.vars.insert a place } : RecState).entries.count n =
      (a :: s.entries).count n := by
  cases place with
  | frame up key =>
    simp only [VarState.insert]
    split_ifs with hup
    · have hget : s.vars.procFrames[up]? = some (s.vars.frameAt up) := by
        simp [VarState.frameAt, hup]
      have hset := count_flatMap_set hget ((key, a) :: s.vars.frameAt up) (List.map Prod.snd) n
      simp only [RecState.entries, RecState.tables, frames, flatMap_append,
        count_append, map_cons, count_cons] at hset ⊢
      omega
    · simp only [RecState.entries, RecState.tables, frames, flatMap_append,
        count_append, map_cons, count_cons, flatMap_cons, flatMap_nil, append_nil]
      omega
  | global key =>
    simp only [VarState.insert, RecState.entries, RecState.tables, frames,
      flatMap_append, count_append, map_cons, count_cons, flatMap_cons, flatMap_nil, append_nil]
    omega
  | ns path key =>
    have hmem : path ∈ s.vars.namespaces.dedup := mem_dedup.mpr hns
    have hset := count_flatMap_update (nodup_dedup s.vars.namespaces) hmem
      (f := fun p => (s.vars.nsVars p).map Prod.snd)
      (g := fun p => (update s.vars.nsVars path ((key, a) :: s.vars.nsVars path) p).map Prod.snd)
      (fun p hp => by rw [update_of_ne hp]) n
    simp only [update_self, map_cons, count_cons] at hset
    simp only [VarState.insert, RecState.entries, RecState.tables, frames,
      flatMap_append, count_append, count_cons, flatMap_map]
    omega

theorem mem_tables_insert {a : VarId}
    (h : t ∈ ({ s with vars := s.vars.insert a place } : RecState).tables) :
    t ∈ s.tables ∨ t = (place.key, a) :: s.vars.table place := by
  cases place with
  | frame up key =>
    simp only [VarState.insert] at h
    split_ifs at h with hup
    · simp only [RecState.tables, frames, mem_append, mem_singleton] at h ⊢
      rcases h with ((h | h) | h) | h
      · rcases mem_or_eq_of_mem_set h with h | h
        · tauto
        · exact .inr h
      · tauto
      · tauto
      · tauto
    · have hglobal : s.vars.frameAt up = s.vars.globalFrame := by
        rw [VarState.frameAt, getElem?_eq_none (Nat.le_of_not_lt hup), Option.getD_none]
      simp only [RecState.tables, frames, mem_append, mem_singleton,
        table, hglobal, VarPlace.key] at h ⊢
      tauto
  | global key =>
    simp only [VarState.insert, RecState.tables, frames, mem_append,
      mem_singleton, table, VarPlace.key] at h ⊢
    tauto
  | ns path key =>
    simp only [VarState.insert, RecState.tables, frames, mem_append,
      mem_singleton, table, VarPlace.key, mem_map] at h ⊢
    rcases h with h | ⟨p, hp, rfl⟩
    · exact .inl (.inl h)
    · by_cases hpath : p = path
      · subst hpath
        exact .inr (update_self _ _ _)
      · rw [update_of_ne hpath]
        exact .inl (.inr ⟨p, hp, rfl⟩)

theorem table_mem_tables (hns : s.vars.HasNs place) : s.vars.table place ∈ s.tables := by
  cases place with
  | frame up key => exact mem_append_left _ (mem_append_left _ (frameAt_mem _ _))
  | global key =>
    simp [RecState.tables, frames, table]
  | ns path key =>
    exact mem_append_right _ (mem_map.mpr ⟨path, mem_dedup.mpr hns, rfl⟩)

theorem mem_entries {k : Bytes} {r : VarId} (ht : t ∈ s.tables) (hr : t.lookup k = some r) :
    r ∈ s.entries :=
  mem_flatMap.mpr ⟨t, ht, mem_map.mpr ⟨(k, r), mem_of_lookup hr, rfl⟩⟩

/-! ## The invariant -/

structure RecInv (s : RecState) : Prop where
  sound : HeapSound s.vars.nextVar 0 s.recHeap (fun a => (s.vars.heap a).elements) s.entries []
  keys : ∀ t ∈ s.tables, (t.map Prod.fst).Nodup
  arrayKeys : ∀ r < s.vars.nextVar, (((s.vars.heap r).pHash.getD []).map Prod.fst).Nodup
  exclusive : ∀ r < s.vars.nextVar,
    ¬ ((s.vars.heap r).zData.isSome = true ∧ (s.vars.heap r).pHash.isSome = true)
  names : NamespacesSound s.vars

theorem recInv_init : RecInv RecState.init where
  sound := ⟨.nil, fun _ _ => rfl, nodup_nil, forall_mem_nil _,
    fun _ h => absurd h (Nat.not_lt_zero _)⟩
  keys t ht := by
    have hnil : t = [] := by
      simpa [RecState.tables, RecState.init, VarState.init, frames] using ht
    rw [hnil]
    exact nodup_nil
  arrayKeys _ h := absurd h (Nat.not_lt_zero _)
  exclusive _ h := absurd h (Nat.not_lt_zero _)
  names := namespacesSound_init

section SetHash

variable (s : VarState) (r : VarId) (t : Table)

theorem setHash_nRef : (fun a => ((s.setHash r t).heap a).nRef) = fun a => (s.heap a).nRef := by
  funext a
  by_cases ha : a = r
  · subst ha
    simp [VarState.setHash]
  · rw [setHash_of_ne s ha]

theorem setHash_elements : (fun a => ((s.setHash r t).heap a).elements) =
    update (fun a => (s.heap a).elements) r (t.map Prod.snd) := by
  funext a
  by_cases ha : a = r
  · subst ha
    simp [VarState.setHash, Variable.elements]
  · rw [setHash_of_ne s ha, update_of_ne ha]

end SetHash

theorem alloc_nRef (s : VarState) : (fun a => (s.alloc.1.heap a).nRef) =
    update (fun a => (s.heap a).nRef) s.nextVar 1 :=
  Function.comp_update Variable.nRef s.heap s.nextVar Variable.new

theorem alloc_elements (s : VarState) : (fun a => (s.alloc.1.heap a).elements) =
    update (fun a => (s.heap a).elements) s.nextVar [] :=
  Function.comp_update Variable.elements s.heap s.nextVar Variable.new

namespace RecInv

variable {s : RecState} {v : VarState}

variable {r : VarId}

section

variable (h : RecInv s)

include h

theorem outer_mem {place : VarPlace} (hr : s.vars.outer place = some r) : r ∈ s.entries := by
  by_cases hns : s.vars.HasNs place
  · exact mem_entries (table_mem_tables hns) hr
  · cases place with
    | frame up key => exact absurd trivial hns
    | global key => exact absurd trivial hns
    | ns path key =>
      have hnil : s.vars.nsVars path = [] := h.names.empty path hns
      simp [VarState.outer, table, hnil] at hr

theorem pos_of_mem (hr : r ∈ s.entries) : r < s.vars.nextVar ∧ 0 < (s.vars.heap r).nRef :=
  h.sound.counted.pos (mem_append_left _ hr)

theorem pos_of_findValueAt {up : ℕ} {zVar : Bytes} (hr : findValueAt s.vars up zVar = some r) :
    r < s.vars.nextVar ∧ 0 < (s.vars.heap r).nRef := by
  unfold findValueAt at hr
  dsimp only at hr
  cases houter : s.vars.outer (varPlace up (analyzeVarName zVar)) with
  | none => simp [houter] at hr
  | some a =>
    rw [houter] at hr
    obtain ⟨ha, hpos⟩ := h.pos_of_mem (h.outer_mem houter)
    cases hinner : (analyzeVarName zVar).zInner with
    | none =>
      rw [hinner] at hr
      cases hr
      exact ⟨ha, hpos⟩
    | some zInner =>
      rw [hinner] at hr
      obtain ⟨t, hhash, hlookup⟩ := Option.bind_eq_some_iff.mp hr
      have hmem : r ∈ (s.vars.heap a).elements := by
        rw [Variable.elements, hhash, Option.getD_some]
        exact mem_map.mpr ⟨_, mem_of_lookup hlookup, rfl⟩
      exact h.sound.counted.pos
        (mem_append_right _ (mem_nested.mpr ⟨a, ha, Nat.ne_of_gt hpos, hmem⟩))

theorem namespaces {path : NsPath} (hdepth : path.length ≤ mxNsDepth) :
    RecInv { s with vars := { s.vars with namespaces := path.inits ++ s.vars.namespaces } } where
  sound := by
    refine h.sound.perm fun n => ?_
    simp only [RecState.entries, RecState.tables, frames, flatMap_append, count_append, flatMap_map]
    refine congrArg _ (count_flatMap_dedup_append (fun p hp => ?_) n)
    rw [h.names.empty p hp, map_nil]
  keys t ht := by
    simp only [RecState.tables, mem_append, mem_map] at ht
    rcases ht with ht | ⟨p, -, rfl⟩
    · exact h.keys t (mem_append_left _ (mem_append.mpr ht))
    · by_cases hp : p ∈ s.vars.namespaces
      · exact h.keys _ (mem_append_right _ (mem_map.mpr ⟨p, mem_dedup.mpr hp, rfl⟩))
      · rw [h.names.empty p hp]
        exact nodup_nil
  arrayKeys := h.arrayKeys
  exclusive := h.exclusive
  names := h.names.creationStep (.namespaces path hdepth)

theorem alloc_sound :
    HeapSound (s.vars.nextVar + 1) 0 ⟨s.vars.alloc.1.heap, s.released⟩
      (fun a => (s.vars.alloc.1.heap a).elements) (s.vars.nextVar :: s.entries) [] where
  counted := by
    rw [alloc_nRef, alloc_elements]
    exact h.sound.counted.make
  agree _ _ := rfl
  once := h.sound.once
  known r hr := Nat.lt_succ_of_lt (h.sound.known r hr)
  dead r hr := by
    rcases Nat.lt_succ_iff_lt_or_eq.mp hr with hlt | rfl
    · simp only [alloc, update_of_ne (Nat.ne_of_lt hlt)]
      exact h.sound.dead r hlt
    · refine iff_of_false (fun hmem => absurd (h.sound.known _ hmem) (Nat.lt_irrefl _)) ?_
      simp [alloc, Variable.new]

theorem entry {place : VarPlace} (hns : s.vars.HasNs place) (hnone : s.vars.outer place = none) :
    RecInv { s with vars := s.vars.alloc.1.insert s.vars.alloc.2 place } where
  sound := by
    have hns' : s.vars.alloc.1.HasNs place := by cases place <;> exact hns
    have hcount := count_entries_insert (s := { s with vars := s.vars.alloc.1 })
      (a := s.vars.alloc.2) hns'
    simp only [RecState.recHeap, insert_heap, insert_nextVar]
    exact h.alloc_sound.perm hcount
  keys t ht := by
    rcases mem_tables_insert (s := { s with vars := s.vars.alloc.1 }) ht with ht | rfl
    · exact h.keys t ht
    · have htable : s.vars.alloc.1.table place = s.vars.table place := by cases place <;> rfl
      rw [htable, map_cons]
      refine nodup_cons.mpr ⟨fun hmem => ?_, h.keys _ (table_mem_tables hns)⟩
      obtain ⟨p, hp, hkey⟩ := mem_map.mp hmem
      have hne := lookup_eq_none_iff.mp hnone p hp
      rw [hkey] at hne
      simp at hne
  arrayKeys r hr := by
    simp only [insert_heap, insert_nextVar] at hr ⊢
    rcases Nat.lt_succ_iff_lt_or_eq.mp hr with hlt | rfl
    · simp only [alloc, update_of_ne (Nat.ne_of_lt hlt)]
      exact h.arrayKeys r hlt
    · simp [alloc, Variable.new]
  exclusive r hr := by
    simp only [insert_heap, insert_nextVar] at hr ⊢
    rcases Nat.lt_succ_iff_lt_or_eq.mp hr with hlt | rfl
    · simp only [alloc, update_of_ne (Nat.ne_of_lt hlt)]
      exact h.exclusive r hlt
    · simp [alloc, Variable.new]
  names := h.names.creationStep (.entry place hns hnone)

end

end RecInv

end Th8
