import Mathlib.Data.List.Nodup
import Th8.Memory.SafeAlloc
import Th8.Support.Transition

/-!
# The hash table

Entries hang in 257 chains, each new one at the front of its chain.  A key is a byte
string with an explicit length.  Every entry carries a stamp from a counter of
insertions, which orders the entries for ordered iteration and stops at the largest
64-bit value.
-/

namespace Th8

open Support List
open Function (update update_eq_self update_of_ne update_self)

/-- `th8HashSeed0` and `th8HashSeed1`. -/
structure HashSeed where
  seed0 : UInt64
  seed1 : UInt64

structure SipState where
  v0 : UInt64
  v1 : UInt64
  v2 : UInt64
  v3 : UInt64

def rotl (v : UInt64) (k : UInt64) : UInt64 := (v <<< k) ||| (v >>> (64 - k))

/-- `SIPROUND`. -/
def SipState.round (s : SipState) : SipState :=
  let v0 := s.v0 + s.v1
  let v1 := rotl s.v1 13 ^^^ v0
  let v0 := rotl v0 32
  let v2 := s.v2 + s.v3
  let v3 := rotl s.v3 16 ^^^ v2
  let v0 := v0 + v3
  let v3 := rotl v3 21 ^^^ v0
  let v2 := v2 + v1
  let v1 := rotl v1 17 ^^^ v2
  let v2 := rotl v2 32
  ⟨v0, v1, v2, v3⟩

def wordOf (z : Bytes) : UInt64 :=
  z.foldr (fun c m => (m <<< 8) ||| c.toUInt64) 0

def SipState.absorb (s : SipState) (m : UInt64) : SipState :=
  let s := { s with v3 := s.v3 ^^^ m }.round.round
  { s with v0 := s.v0 ^^^ m }

def SipState.absorbBlocks (s : SipState) : Bytes → SipState × Bytes
  | c₀ :: c₁ :: c₂ :: c₃ :: c₄ :: c₅ :: c₆ :: c₇ :: rest =>
    (s.absorb (wordOf [c₀, c₁, c₂, c₃, c₄, c₅, c₆, c₇])).absorbBlocks rest
  | rest => (s, rest)

def hashSize : ℕ := 257

def hashKey (seed : HashSeed) (zKey : Bytes) : ℕ :=
  let s : SipState :=
    ⟨seed.seed0 ^^^ 0x736f6d6570736575, seed.seed1 ^^^ 0x646f72616e646f6d,
      seed.seed0 ^^^ 0x6c7967656e657261, seed.seed1 ^^^ 0x7465646279746573⟩
  let (s, tail) := s.absorbBlocks zKey
  let s := s.absorb ((zKey.length.toUInt64 <<< 56) ||| wordOf tail)
  let s := { s with v2 := s.v2 ^^^ 0xff }.round.round.round.round
  (s.v0 ^^^ s.v1 ^^^ s.v2 ^^^ s.v3).toNat % hashSize

theorem hashKey_lt (seed : HashSeed) (zKey : Bytes) : hashKey seed zKey < hashSize :=
  Nat.mod_lt _ (by decide)

/-! ## Tables -/

variable {V : Type}

/-- `Th8_HashEntry`; `id` is its address. -/
structure HashEntry (V : Type) where
  id : ℕ
  zKey : Bytes
  pData : Option V
  nInsertOrder : ℕ
deriving DecidableEq

/-- `Th8_Hash`. -/
structure HashTable (V : Type) where
  aBucket : ℕ → List (HashEntry V)
  nNextOrder : ℕ

/-- `TH8_INT64_MAX`, where the insertion counter stops. -/
def insertOrderMax : ℕ := 2 ^ 63 - 1

/-- What `Th8_HashFind` is to do: the sign of its `op`.  For an insertion, whether the
allocations of the entry and of the key are granted, and the address of the entry. -/
inductive FindMode where
  | delete
  | find
  | insert (entryGranted keyGranted : Bool) (id : ℕ)

def keyBytes (z : Bytes) (nKey : Option ℕ) : Bytes :=
  match nKey with
  | none => z.takeWhile (· != 0)
  | some n => z.take n

namespace HashTable

/-- `Th8_HashNew`. -/
def new : HashTable V := ⟨fun _ => [], 0⟩

def insertGranted (entryGranted keyGranted : Bool) (zKey : Bytes) : Bool :=
  safeAlloc entryGranted 48 && safeAllocStr keyGranted zKey.length

def insertEntry (seed : HashSeed) (t : HashTable V) (zKey : Bytes) (id : ℕ) :
    HashTable V × HashEntry V :=
  let p : HashEntry V := ⟨id, zKey, none,
    if t.nNextOrder < insertOrderMax then t.nNextOrder else insertOrderMax⟩
  let iBucket := hashKey seed zKey
  ({ aBucket := update t.aBucket iBucket (p :: t.aBucket iBucket)
     nNextOrder := if t.nNextOrder < insertOrderMax then t.nNextOrder + 1
       else t.nNextOrder }, p)

/-- `Th8_HashFind`: the table after it and the entry returned. -/
def hashFind (seed : HashSeed) (t : HashTable V) (zKey : Bytes) (op : FindMode) :
    HashTable V × Option (HashEntry V) :=
  let iBucket := hashKey seed zKey
  match (t.aBucket iBucket).find? (fun p => p.zKey == zKey) with
  | some p =>
    match op with
    | .delete =>
      ({ t with
        aBucket := update t.aBucket iBucket
          ((t.aBucket iBucket).eraseP fun p => p.zKey == zKey) }, none)
    | .find => (t, some p)
    | .insert _ _ _ => (t, some p)
  | none =>
    match op with
    | .delete => (t, none)
    | .find => (t, none)
    | .insert entryGranted keyGranted id =>
      if insertGranted entryGranted keyGranted zKey then
        let r := t.insertEntry seed zKey id
        (r.1, some r.2)
      else (t, none)

/-- A caller stores `v` in the entry at `id`. -/
def setData (t : HashTable V) (id : ℕ) (v : Option V) : HashTable V :=
  { t with
    aBucket := fun i =>
      (t.aBucket i).map fun p => if p.id = id then { p with pData := v } else p }

end HashTable

/-- A finite map from keys to entries: the live keys in the order of their insertion,
the address and the data of each, and how many insertions there have been. -/
structure KeyMap (V : Type) where
  order : List Bytes
  get : Bytes → Option (ℕ × Option V)
  nInserted : ℕ

namespace KeyMap

def empty : KeyMap V := ⟨[], fun _ => none, 0⟩

def insert (m : KeyMap V) (zKey : Bytes) (id : ℕ) : KeyMap V :=
  { order := m.order ++ [zKey]
    get := update m.get zKey (some (id, none))
    nInserted := m.nInserted + 1 }

def remove (m : KeyMap V) (zKey : Bytes) : KeyMap V :=
  { m with
    order := m.order.filter (· != zKey)
    get := update m.get zKey none }

/-- What `Th8_HashFind` does to the map, and what it returns. -/
def find (m : KeyMap V) (zKey : Bytes) (op : FindMode) : KeyMap V × Option (ℕ × Option V) :=
  match op with
  | .delete => (m.remove zKey, none)
  | .find => (m, m.get zKey)
  | .insert entryGranted keyGranted id =>
    if (m.get zKey).isNone && HashTable.insertGranted entryGranted keyGranted zKey then
      (m.insert zKey id, some (id, none))
    else (m, m.get zKey)

def setData (m : KeyMap V) (id : ℕ) (v : Option V) : KeyMap V :=
  { m with get := fun k => (m.get k).map fun x => if x.1 = id then (x.1, v) else x }

end KeyMap

def HashEntry.view (p : HashEntry V) : ℕ × Option V := (p.id, p.pData)

theorem find?_zKey_eq_some {l : List (HashEntry V)} (hnd : (l.map (·.zKey)).Nodup)
    {k : Bytes} {p : HashEntry V} :
    l.find? (fun q => q.zKey == k) = some p ↔ p ∈ l ∧ p.zKey = k := by
  induction l with
  | nil => simp
  | cons q rest ih =>
    rw [map_cons, nodup_cons] at hnd
    by_cases hq : q.zKey = k
    · rw [find?_cons_of_pos (by simpa using hq), Option.some.injEq, mem_cons]
      constructor
      · rintro rfl
        exact ⟨Or.inl rfl, hq⟩
      · rintro ⟨rfl | hp, hk⟩
        · rfl
        · exact absurd (hq.trans hk.symm ▸ mem_map_of_mem hp) hnd.1
    · rw [find?_cons_of_neg (by simpa using hq), ih hnd.2, mem_cons]
      constructor
      · rintro ⟨hp, hk⟩
        exact ⟨Or.inr hp, hk⟩
      · rintro ⟨rfl | hp, hk⟩
        · exact absurd hk hq
        · exact ⟨hp, hk⟩

theorem eraseP_zKey {l : List (HashEntry V)} (hnd : (l.map (·.zKey)).Nodup) (k : Bytes) :
    l.eraseP (fun q => q.zKey == k) = l.filter fun q => q.zKey != k := by
  induction l with
  | nil => rfl
  | cons q rest ih =>
    rw [map_cons, nodup_cons] at hnd
    by_cases hq : q.zKey = k
    · have hrest : rest.filter (fun q => q.zKey != k) = rest := by
        apply filter_eq_self.mpr
        intro p hp
        have hne : p.zKey ≠ k := by
          intro hk
          exact hnd.1 (hq.trans hk.symm ▸ mem_map_of_mem hp)
        simpa using hne
      simp [hq, hrest]
    · simp [hq, ih hnd.2]

/-! ## Refinement -/

/-- The table holds the entries `live`, in the order of their insertion, and stands for
the map. -/
structure Represents (seed : HashSeed) (t : HashTable V) (m : KeyMap V)
    (live : List (HashEntry V)) : Prop where
  chains : ∀ i, t.aBucket i = (live.filter fun p => hashKey seed p.zKey == i).reverse
  keys : live.map (·.zKey) = m.order
  nodup : m.order.Nodup
  get_eq : ∀ k, m.get k = (live.find? fun p => p.zKey == k).map HashEntry.view
  next_eq : t.nNextOrder = min m.nInserted insertOrderMax
  stamp_lt : ∀ p ∈ live, p.nInsertOrder < m.nInserted
  stamps : m.nInserted ≤ insertOrderMax + 1 →
    live.Pairwise fun p q => p.nInsertOrder < q.nInsertOrder

namespace Represents

variable {seed : HashSeed} {t : HashTable V} {m : KeyMap V} {live : List (HashEntry V)}

theorem new : Represents seed (HashTable.new : HashTable V) KeyMap.empty [] := by
  constructor
  · exact fun _ => rfl
  · rfl
  · exact nodup_nil
  · exact fun _ => rfl
  · rfl
  · simp
  · exact fun _ => List.Pairwise.nil

section

variable (h : Represents seed t m live)

include h

theorem live_nodup : (live.map (·.zKey)).Nodup := by
  rw [h.keys]
  exact h.nodup

theorem bucket_nodup (i : ℕ) : ((t.aBucket i).map (·.zKey)).Nodup := by
  rw [h.chains i, map_reverse, nodup_reverse]
  exact h.live_nodup.sublist (filter_sublist.map _)

theorem find_bucket (k : Bytes) :
    (t.aBucket (hashKey seed k)).find? (fun p => p.zKey == k) =
      live.find? fun p => p.zKey == k := by
  apply Option.ext
  intro p
  rw [find?_zKey_eq_some (h.bucket_nodup _), find?_zKey_eq_some h.live_nodup, h.chains]
  simp only [mem_reverse, mem_filter, beq_iff_eq]
  constructor
  · rintro ⟨⟨hp, -⟩, hk⟩
    exact ⟨hp, hk⟩
  · rintro ⟨hp, rfl⟩
    exact ⟨⟨hp, rfl⟩, rfl⟩

end

variable {k : Bytes}

section

variable (h : Represents seed t m live)

include h

theorem get_eq_none : m.get k = none ↔ k ∉ m.order := by
  rw [h.get_eq, Option.map_eq_none_iff, find?_eq_none, ← h.keys, mem_map]
  constructor
  · rintro hall ⟨p, hp, rfl⟩
    exact hall p hp (by simp)
  · intro hno p hp hk
    exact hno ⟨p, hp, by simpa using hk⟩

theorem insertEntry (hk : k ∉ m.order) (id : ℕ) :
    Represents seed (t.insertEntry seed k id).1 (m.insert k id)
      (live ++ [(t.insertEntry seed k id).2]) := by
  have hnext := h.next_eq
  constructor
  · intro i
    simp only [HashTable.insertEntry, filter_append, reverse_append]
    by_cases hi : i = hashKey seed k
    · subst hi
      rw [update_self, h.chains]
      simp
    · have hi' : ¬hashKey seed k = i := fun hc => hi hc.symm
      rw [update_of_ne hi, h.chains]
      simp [hi']
  · simp [HashTable.insertEntry, KeyMap.insert, h.keys]
  · simp only [KeyMap.insert]
    rw [nodup_append]
    refine ⟨h.nodup, nodup_singleton k, ?_⟩
    rintro a ha b hb rfl
    rw [mem_singleton] at hb
    exact hk (hb ▸ ha)
  · intro q
    simp only [KeyMap.insert, find?_append, HashTable.insertEntry]
    by_cases hq : q = k
    · subst hq
      have hnone : live.find? (fun p => p.zKey == q) = none := by
        have := h.get_eq_none.mpr hk
        rwa [h.get_eq, Option.map_eq_none_iff] at this
      rw [update_self, hnone]
      simp [HashEntry.view]
    · have hq' : ¬k = q := fun hc => hq hc.symm
      rw [update_of_ne hq, h.get_eq]
      simp [hq']
  · simp only [HashTable.insertEntry, KeyMap.insert]
    by_cases hlt : t.nNextOrder < insertOrderMax
    · rw [if_pos hlt]
      omega
    · rw [if_neg hlt]
      omega
  · intro p hp
    simp only [KeyMap.insert]
    rcases mem_append.mp hp with hp | hp
    · have := h.stamp_lt p hp
      omega
    · rw [mem_singleton] at hp
      subst hp
      simp only [HashTable.insertEntry]
      split_ifs <;> omega
  · intro hle
    simp only [KeyMap.insert] at hle
    rw [pairwise_append]
    refine ⟨h.stamps (by omega), pairwise_singleton _ _, ?_⟩
    intro p hp q hq
    rw [mem_singleton] at hq
    subst hq
    have := h.stamp_lt p hp
    simp only [HashTable.insertEntry]
    split_ifs <;> omega

theorem erase_bucket (k : Bytes) (i : ℕ) :
    update t.aBucket (hashKey seed k) ((t.aBucket (hashKey seed k)).eraseP fun p => p.zKey == k) i =
      ((live.filter fun p => p.zKey != k).filter fun p =>
        hashKey seed p.zKey == i).reverse := by
  by_cases hi : i = hashKey seed k
  · subst hi
    rw [update_self, eraseP_zKey (h.bucket_nodup _), h.chains, filter_reverse, filter_comm]
  · rw [update_of_ne hi, h.chains, filter_filter]
    congr 1
    apply filter_congr
    intro p _
    -- an entry of this key hangs in another chain
    by_cases hp : p.zKey = k
    · have hne : ¬hashKey seed k = i := fun hc => hi hc.symm
      simp [hp, hne]
    · simp [hp]

theorem remove (k : Bytes) :
    Represents seed
      { t with
        aBucket := update t.aBucket (hashKey seed k)
          ((t.aBucket (hashKey seed k)).eraseP fun p => p.zKey == k) }
      (m.remove k) (live.filter fun p => p.zKey != k) := by
  constructor
  · exact h.erase_bucket k
  · simp only [KeyMap.remove]
    rw [← h.keys, filter_map]
    rfl
  · exact h.nodup.filter _
  · intro q
    simp only [KeyMap.remove]
    by_cases hq : q = k
    · subst hq
      rw [update_self]
      symm
      rw [Option.map_eq_none_iff, find?_eq_none]
      intro p hp
      simpa using (mem_filter.mp hp).2
    · rw [update_of_ne hq, h.get_eq, find?_filter]
      congr 2
      funext p
      by_cases hp : p.zKey = q
      · simp [hp, hq]
      · simp [hp]
  · exact h.next_eq
  · intro p hp
    exact h.stamp_lt p (mem_filter.mp hp).1
  · intro hle
    exact (h.stamps hle).filter _

theorem remove_of_notMem (hk : k ∉ m.order) : m.remove k = m := by
  have horder : m.order.filter (· != k) = m.order := by
    apply filter_eq_self.mpr
    intro q hq
    have hne : q ≠ k := fun hc => hk (hc ▸ hq)
    simpa using hne
  have hget : update m.get k none = m.get := by
    rw [← h.get_eq_none.mpr hk]
    exact update_eq_self k m.get
  simp only [KeyMap.remove, horder, hget]

theorem hashFind (k : Bytes) (op : FindMode) :
    (∃ live', Represents seed (t.hashFind seed k op).1 (m.find k op).1 live') ∧
      (t.hashFind seed k op).2.map HashEntry.view = (m.find k op).2 := by
  have hget := h.get_eq k
  rw [← h.find_bucket k] at hget
  cases hfind : (t.aBucket (hashKey seed k)).find? (fun p => p.zKey == k) with
  | some p =>
    rw [hfind] at hget
    simp only [HashTable.hashFind, hfind]
    cases op with
    | delete => exact ⟨⟨_, h.remove k⟩, rfl⟩
    | find => exact ⟨⟨live, h⟩, hget.symm⟩
    | insert entryGranted keyGranted id =>
      have hfound : m.find k (.insert entryGranted keyGranted id) = (m, m.get k) := by
        simp [KeyMap.find, hget]
      rw [hfound]
      exact ⟨⟨live, h⟩, hget.symm⟩
  | none =>
    rw [hfind, Option.map_none] at hget
    simp only [HashTable.hashFind, hfind]
    have hk : k ∉ m.order := h.get_eq_none.mp hget
    cases op with
    | delete =>
      simp only [KeyMap.find, h.remove_of_notMem hk]
      exact ⟨⟨live, h⟩, rfl⟩
    | find => exact ⟨⟨live, h⟩, hget.symm⟩
    | insert entryGranted keyGranted id =>
      by_cases hgrant : HashTable.insertGranted entryGranted keyGranted k = true
      · simp only [KeyMap.find, hget, hgrant, if_true, Option.isNone_none, Bool.and_self]
        exact ⟨⟨_, h.insertEntry hk id⟩, rfl⟩
      · have hno : HashTable.insertGranted entryGranted keyGranted k = false := by
          simpa using hgrant
        simp only [KeyMap.find, hno, Bool.and_false]
        exact ⟨⟨live, h⟩, hget.symm⟩

theorem setData (id : ℕ) (v : Option V) :
    Represents seed (t.setData id v) (m.setData id v)
      (live.map fun p => if p.id = id then { p with pData := v } else p) := by
  obtain ⟨f, hf⟩ : ∃ f : HashEntry V → HashEntry V,
      f = fun p => if p.id = id then { p with pData := v } else p := ⟨_, rfl⟩
  have hkey : ∀ p, (f p).zKey = p.zKey := by
    intro p
    rw [hf]
    by_cases hp : p.id = id
    · simp [hp]
    · simp [hp]
  have hstamp : ∀ p, (f p).nInsertOrder = p.nInsertOrder := by
    intro p
    rw [hf]
    by_cases hp : p.id = id
    · simp [hp]
    · simp [hp]
  have hview : ∀ p, (f p).view = if p.view.1 = id then (p.view.1, v) else p.view := by
    intro p
    rw [hf]
    by_cases hp : p.id = id
    · simp [HashEntry.view, hp]
    · simp [HashEntry.view, hp]
  rw [← hf]
  constructor
  · intro i
    have hpred : ((fun p : HashEntry V => hashKey seed p.zKey == i) ∘ f) =
        fun p => hashKey seed p.zKey == i := by
      funext p
      simp only [Function.comp_apply, hkey]
    simp only [HashTable.setData, ← hf, h.chains]
    rw [map_reverse, filter_map, hpred]
  · rw [map_map]
    simpa [Function.comp_def, hkey, KeyMap.setData] using h.keys
  · exact h.nodup
  · intro k
    have hpred : ((fun p : HashEntry V => p.zKey == k) ∘ f) = fun p => p.zKey == k := by
      funext p
      simp [hkey]
    rw [find?_map, hpred, Option.map_map]
    simp only [KeyMap.setData, h.get_eq, Option.map_map]
    congr 1
    funext p
    exact (hview p).symm
  · exact h.next_eq
  · intro q hq
    obtain ⟨p, hp, rfl⟩ := mem_map.mp hq
    rw [hstamp]
    exact h.stamp_lt p hp
  · intro hle
    rw [pairwise_map]
    simpa [hstamp] using h.stamps hle

end

end Represents

inductive HashOp (V : Type) where
  | hashFind (zKey : Bytes) (nKey : Option ℕ) (op : FindMode)
  | setData (id : ℕ) (v : Option V)

structure HashRun (V : Type) where
  table : HashTable V
  map : KeyMap V

namespace HashRun

def init : HashRun V := ⟨.new, .empty⟩

def step (seed : HashSeed) (r : HashRun V) : HashOp V → HashRun V
  | .hashFind zKey nKey op =>
    ⟨(r.table.hashFind seed (keyBytes zKey nKey) op).1, (r.map.find (keyBytes zKey nKey) op).1⟩
  | .setData id v => ⟨r.table.setData id v, r.map.setData id v⟩

theorem represents_of_reachable {seed : HashSeed} {r : HashRun V}
    (hr : Reachable (step seed) init r) : ∃ live, Represents seed r.table r.map live := by
  apply hr.invariant
  · exact ⟨[], Represents.new⟩
  · rintro r op ⟨live, h⟩ -
    cases op with
    | hashFind zKey nKey op => exact (h.hashFind _ op).1
    | setData id v => exact ⟨_, h.setData id v⟩

end HashRun

end Th8
