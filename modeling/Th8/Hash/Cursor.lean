import Mathlib.Data.List.TakeWhile
import Th8.Hash.Table

/-!
# A walk along the chains of a table

A search through an array holds the number of a chain and a pointer to an entry of it.
Every step moves the pointer along the chain, and at its end on to the next chain that is
not empty.
-/

namespace Th8

open List

variable {V : Type}

/-- The position of a search: `iBucket` and `pCursor`. -/
structure Cursor where
  iBucket : ℕ
  pCursor : Option ℕ
deriving DecidableEq

namespace HashTable

/-- `aBucket[iBucket]` as a pointer. -/
def bucketHead (t : HashTable V) (iBucket : ℕ) : Option ℕ := (t.aBucket iBucket).head?.map (·.id)

/-- `th8ArraySearchSkipEmpty`, with so many rounds of its loop. -/
def skipEmpty (t : HashTable V) : ℕ → Cursor → Cursor
  | 0, c => c
  | rounds + 1, c =>
    if c.pCursor.isSome then c
    else if hashSize ≤ c.iBucket + 1 then ⟨c.iBucket + 1, none⟩
    else skipEmpty t rounds ⟨c.iBucket + 1, t.bucketHead (c.iBucket + 1)⟩

def startCursor (t : HashTable V) : Cursor := t.skipEmpty hashSize ⟨0, t.bucketHead 0⟩

def chainFrom (t : HashTable V) (iBucket id : ℕ) : List (HashEntry V) :=
  (t.aBucket iBucket).dropWhile fun p => p.id != id

/-- Move on from an entry, behind which there is `pNext`. -/
def advance (t : HashTable V) (iBucket : ℕ) (pNext : Option ℕ) : Cursor :=
  if pNext.isSome then ⟨iBucket, pNext⟩ else t.skipEmpty hashSize ⟨iBucket, none⟩

/-! ## What is left of a walk -/

/-- The keys of the chains from `i` on. -/
def keysFrom (t : HashTable V) (i : ℕ) : List Bytes :=
  (List.range' i (hashSize - i)).flatMap fun j => (t.aBucket j).map (·.zKey)

def keys (t : HashTable V) : List Bytes := t.keysFrom 0

def remaining (t : HashTable V) (c : Cursor) : List Bytes :=
  match c.pCursor with
  | none => []
  | some id => (t.chainFrom c.iBucket id).map (·.zKey) ++ t.keysFrom (c.iBucket + 1)

def Valid (t : HashTable V) (c : Cursor) : Prop :=
  ∀ id, c.pCursor = some id → c.iBucket < hashSize ∧ ∃ p ∈ t.aBucket c.iBucket, p.id = id

theorem keysFrom_of_lt (t : HashTable V) {i : ℕ} (h : i < hashSize) :
    t.keysFrom i = (t.aBucket i).map (·.zKey) ++ t.keysFrom (i + 1) := by
  have hsize : hashSize - i = (hashSize - (i + 1)) + 1 := by omega
  rw [keysFrom, hsize, range'_succ, flatMap_cons, keysFrom]

theorem keysFrom_of_le (t : HashTable V) {i : ℕ} (h : hashSize ≤ i) : t.keysFrom i = [] := by
  rw [keysFrom, Nat.sub_eq_zero_of_le h]
  rfl

variable {iBucket id : ℕ}

theorem chainFrom_head (t : HashTable V) (h : t.bucketHead iBucket = some id) :
    t.chainFrom iBucket id = t.aBucket iBucket := by
  unfold bucketHead at h
  unfold chainFrom
  cases hchain : t.aBucket iBucket with
  | nil => rfl
  | cons p rest =>
    rw [hchain] at h
    obtain rfl : p.id = id := by simpa using h
    simp

theorem valid_bucketHead (t : HashTable V) (hlt : iBucket < hashSize) :
    t.Valid ⟨iBucket, t.bucketHead iBucket⟩ := by
  intro id hid
  obtain ⟨p, hp, rfl⟩ := Option.map_eq_some_iff.mp hid
  exact ⟨hlt, p, mem_of_head? hp, rfl⟩

theorem remaining_bucketHead_some (t : HashTable V) (hlt : iBucket < hashSize)
    (h : t.bucketHead iBucket = some id) :
    t.remaining ⟨iBucket, t.bucketHead iBucket⟩ = t.keysFrom iBucket := by
  rw [t.keysFrom_of_lt hlt, h, remaining]
  simp only [t.chainFrom_head h]

theorem keysFrom_bucketHead_none (t : HashTable V) (hlt : iBucket < hashSize)
    (h : t.bucketHead iBucket = none) : t.keysFrom iBucket = t.keysFrom (iBucket + 1) := by
  have hnil : t.aBucket iBucket = [] := by simpa [bucketHead] using h
  rw [t.keysFrom_of_lt hlt, hnil]
  rfl

theorem skipEmpty_some (t : HashTable V) (rounds : ℕ) :
    t.skipEmpty rounds ⟨iBucket, some id⟩ = ⟨iBucket, some id⟩ := by
  cases rounds with
  | zero => rfl
  | succ rounds => rw [skipEmpty, if_pos (by simp)]

theorem skipEmpty_spec (t : HashTable V) (rounds : ℕ) {pCursor : Option ℕ}
    (hrounds : hashSize ≤ iBucket + rounds) (hlt : iBucket < hashSize) (hnone : pCursor = none) :
    t.remaining (t.skipEmpty rounds ⟨iBucket, pCursor⟩) = t.keysFrom (iBucket + 1) ∧
      t.Valid (t.skipEmpty rounds ⟨iBucket, pCursor⟩) := by
  subst hnone
  induction rounds generalizing iBucket with
  | zero => omega
  | succ rounds ih =>
    rw [skipEmpty, if_neg (by simp)]
    by_cases hend : hashSize ≤ iBucket + 1
    · rw [if_pos hend, t.keysFrom_of_le hend]
      exact ⟨rfl, fun id hid => by simp at hid⟩
    · rw [if_neg hend]
      have hlt' : iBucket + 1 < hashSize := Nat.lt_of_not_le hend
      cases hhead : t.bucketHead (iBucket + 1) with
      | none =>
        simp only
        rw [t.keysFrom_bucketHead_none hlt' hhead]
        exact ih (by omega) hlt'
      | some id =>
        simp only
        rw [t.skipEmpty_some, ← hhead]
        exact ⟨t.remaining_bucketHead_some hlt' hhead, t.valid_bucketHead hlt'⟩

theorem startCursor_spec (t : HashTable V) :
    t.remaining t.startCursor = t.keys ∧ t.Valid t.startCursor := by
  have hlt : 0 < hashSize := by decide
  unfold startCursor
  cases hhead : t.bucketHead 0 with
  | none =>
    rw [keys, t.keysFrom_bucketHead_none hlt hhead]
    exact t.skipEmpty_spec hashSize (by omega) hlt rfl
  | some id =>
    rw [t.skipEmpty_some, ← hhead]
    exact ⟨t.remaining_bucketHead_some hlt hhead, t.valid_bucketHead hlt⟩

theorem advance_spec (t : HashTable V) (hids : ((t.aBucket iBucket).map (·.id)).Nodup)
    (hvalid : t.Valid ⟨iBucket, some id⟩) :
    ∃ p rest, t.chainFrom iBucket id = p :: rest ∧
      t.remaining ⟨iBucket, some id⟩ =
        p.zKey :: t.remaining (t.advance iBucket (rest.head?.map (·.id))) ∧
      t.Valid (t.advance iBucket (rest.head?.map (·.id))) := by
  obtain ⟨hlt, q, hq, hqid⟩ := hvalid id rfl
  cases hchain : t.chainFrom iBucket id with
  | nil =>
    have hall := dropWhile_eq_nil_iff.mp hchain q hq
    exact absurd hqid (by simpa using hall)
  | cons p rest =>
    have hsplit : t.aBucket iBucket =
        (t.aBucket iBucket).takeWhile (fun p => p.id != id) ++ p :: rest := by
      conv_lhs => rw [← takeWhile_append_dropWhile (p := fun p => p.id != id)
        (l := t.aBucket iBucket)]
      rw [← hchain, chainFrom]
    refine ⟨p, rest, rfl, ?_⟩
    have hremaining : t.remaining ⟨iBucket, some id⟩ =
        p.zKey :: (rest.map (·.zKey) ++ t.keysFrom (iBucket + 1)) := by
      rw [remaining]
      simp only [hchain]
      rfl
    rw [hremaining]
    cases rest with
    | nil =>
      obtain ⟨hkeys, hvalid'⟩ := t.skipEmpty_spec hashSize (Nat.le_add_left _ _) hlt rfl
      have hadvance : t.advance iBucket (([] : List (HashEntry V)).head?.map (·.id)) =
          t.skipEmpty hashSize ⟨iBucket, none⟩ := if_neg (by simp)
      rw [hadvance, hkeys]
      exact ⟨rfl, hvalid'⟩
    | cons r rest =>
      have hadvance : t.advance iBucket ((r :: rest).head?.map (·.id)) = ⟨iBucket, some r.id⟩ := rfl
      have hnext : t.chainFrom iBucket r.id = r :: rest := by
        have hdistinct := hids
        rw [hsplit, map_append, nodup_append] at hdistinct
        obtain ⟨-, htail, hdisjoint⟩ := hdistinct
        rw [chainFrom, hsplit, dropWhile_append_of_pos, dropWhile_cons_of_pos,
          dropWhile_cons_of_neg (by simp)]
        · have hne : p.id ≠ r.id := fun hpr => (nodup_cons.mp htail).1 (by simp [hpr])
          simpa using hne
        · intro q' hq'
          have hne := hdisjoint q'.id (mem_map_of_mem hq') r.id (by simp)
          simpa using hne
      rw [hadvance, remaining]
      simp only [hnext]
      refine ⟨trivial, fun id' hid' => ⟨hlt, r, ?_, Option.some.inj hid'⟩⟩
      rw [hsplit]
      simp

structure WellChained (seed : HashSeed) (t : HashTable V) : Prop where
  hash : ∀ i, ∀ p ∈ t.aBucket i, hashKey seed p.zKey = i
  keys : ∀ i, ((t.aBucket i).map (·.zKey)).Nodup
  ids : ∀ i, ((t.aBucket i).map (·.id)).Nodup

namespace WellChained

variable {seed : HashSeed} {t : HashTable V}

theorem new : WellChained seed (HashTable.new : HashTable V) :=
  ⟨fun _ _ hp => absurd hp not_mem_nil, fun _ => nodup_nil, fun _ => nodup_nil⟩

variable {k : Bytes}

section

variable (h : WellChained seed t)

include h

theorem mem_keys : k ∈ t.keys ↔ ∃ p ∈ t.aBucket (hashKey seed k), p.zKey = k := by
  rw [HashTable.keys, keysFrom, mem_flatMap]
  constructor
  · rintro ⟨i, -, hk⟩
    obtain ⟨p, hp, rfl⟩ := mem_map.mp hk
    exact ⟨p, h.hash i p hp ▸ hp, rfl⟩
  · rintro ⟨p, hp, rfl⟩
    refine ⟨hashKey seed p.zKey, ?_, mem_map_of_mem hp⟩
    have := hashKey_lt seed p.zKey
    rw [mem_range'_1]
    omega

theorem keys_nodup : t.keys.Nodup := by
  rw [HashTable.keys, keysFrom, nodup_flatMap]
  refine ⟨fun i _ => h.keys i, List.Pairwise.imp (fun {i j} hij => ?_) nodup_range'⟩
  intro k hi hj
  obtain ⟨p, hp, rfl⟩ := mem_map.mp hi
  obtain ⟨q, hq, hkey⟩ := mem_map.mp hj
  exact hij ((h.hash i p hp).symm.trans (hkey ▸ h.hash j q hq))

theorem find?_eq_none :
    (t.aBucket (hashKey seed k)).find? (fun p => p.zKey == k) = none ↔ k ∉ t.keys := by
  rw [h.mem_keys, List.find?_eq_none]
  simp

theorem find_isNone : (t.hashFind seed k .find).2.isNone ↔ k ∉ t.keys := by
  rw [← h.find?_eq_none]
  unfold hashFind
  simp only
  split <;> rename_i hfind <;> simp [hfind]

theorem insert_eq_none (entryGranted keyGranted : Bool) (k : Bytes)
    (id : ℕ) : (t.hashFind seed k (.insert entryGranted keyGranted id)).2 = none ↔
      k ∉ t.keys ∧ insertGranted entryGranted keyGranted k = false := by
  rw [← h.find?_eq_none]
  unfold hashFind
  simp only
  split <;> rename_i hfind
  · simp [hfind]
  · split_ifs with hgrant <;> simp [hfind, hgrant]

theorem insert (entryGranted keyGranted : Bool) (k : Bytes) {id : ℕ}
    (hfresh : ∀ i, ∀ p ∈ t.aBucket i, p.id ≠ id) :
    WellChained seed (t.hashFind seed k (.insert entryGranted keyGranted id)).1 := by
  unfold hashFind
  simp only
  split
  · exact h
  · rename_i hnone
    have hk := h.find?_eq_none.mp hnone
    split_ifs
    · constructor
      · intro i p hp
        simp only [insertEntry] at hp
        by_cases hi : i = hashKey seed k
        · subst hi
          rw [Function.update_self] at hp
          rcases mem_cons.mp hp with rfl | hp
          · rfl
          · exact h.hash _ p hp
        · rw [Function.update_of_ne hi] at hp
          exact h.hash i p hp
      · intro i
        simp only [insertEntry]
        by_cases hi : i = hashKey seed k
        · subst hi
          rw [Function.update_self, map_cons, nodup_cons]
          refine ⟨fun hmem => ?_, h.keys _⟩
          obtain ⟨p, hp, hkey⟩ := mem_map.mp hmem
          exact hk (h.mem_keys.mpr ⟨p, hp, hkey⟩)
        · rw [Function.update_of_ne hi]
          exact h.keys i
      · intro i
        simp only [insertEntry]
        by_cases hi : i = hashKey seed k
        · subst hi
          rw [Function.update_self, map_cons, nodup_cons]
          refine ⟨fun hmem => ?_, h.ids _⟩
          obtain ⟨p, hp, hid⟩ := mem_map.mp hmem
          exact hfresh _ p hp hid
        · rw [Function.update_of_ne hi]
          exact h.ids i
    · exact h

theorem delete (k : Bytes) : WellChained seed (t.hashFind seed k .delete).1 := by
  unfold hashFind
  simp only
  split
  · have hsub : ∀ i, List.Sublist (Function.update t.aBucket (hashKey seed k)
        ((t.aBucket (hashKey seed k)).eraseP fun p => p.zKey == k) i) (t.aBucket i) := by
      intro i
      by_cases hi : i = hashKey seed k
      · subst hi
        rw [Function.update_self]
        exact eraseP_sublist
      · rw [Function.update_of_ne hi]
    exact ⟨fun i p hp => h.hash i p ((hsub i).subset hp),
      fun i => (h.keys i).sublist ((hsub i).map _), fun i => (h.ids i).sublist ((hsub i).map _)⟩
  · exact h

theorem setData (id : ℕ) (v : Option V) : WellChained seed (t.setData id v) := by
  have hkey : ∀ i, ((t.setData id v).aBucket i).map (·.zKey) = (t.aBucket i).map (·.zKey) := by
    intro i
    rw [HashTable.setData, map_map]
    refine map_congr_left fun p _ => ?_
    simp only [Function.comp_apply]
    split_ifs <;> rfl
  have hid : ∀ i, ((t.setData id v).aBucket i).map (·.id) = (t.aBucket i).map (·.id) := by
    intro i
    rw [HashTable.setData, map_map]
    refine map_congr_left fun p _ => ?_
    simp only [Function.comp_apply]
    split_ifs <;> rfl
  refine ⟨fun i p hp => ?_, fun i => hkey i ▸ h.keys i, fun i => hid i ▸ h.ids i⟩
  have hmem : p.zKey ∈ (t.aBucket i).map (·.zKey) := hkey i ▸ mem_map_of_mem hp
  obtain ⟨q, hq, heq⟩ := mem_map.mp hmem
  exact heq ▸ h.hash i q hq

end

end WellChained

end HashTable

end Th8
