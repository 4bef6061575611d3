import Mathlib.Data.List.Pairwise
import Mathlib.Data.List.Sort
import Th8.Hash.Table
import Th8.Support.StableSort

/-!
# Iteration in insertion order

`Th8_HashIterateOrdered` collects the entries from the chains, sorts them by their
stamps with a bottom-up merge sort, and calls back for each in turn.  Every phase asks
at intervals whether the interpreter is still ready and gives up when it is not.
-/

namespace Th8

open Support List

variable {V : Type}

/-- One operation of a loop that polls `Th8_Ready` every 4096 operations: whether it
may go on. -/
def polled (ready : ℕ → Bool) (nOp : ℕ) : Bool := nOp % 4096 != 0 || ready nOp

/-- `n` operations from the one numbered `nOp` on. -/
def pollAll (ready : ℕ → Bool) (nOp n : ℕ) : Bool :=
  (List.range n).all fun k => polled ready (nOp + k)

/-- The merge of two adjacent runs: the left one wins a tie, and what is left of either
is copied. -/
def mergeRuns (ready : ℕ → Bool) (nOp : ℕ) :
    List (HashEntry V) → List (HashEntry V) → Option (List (HashEntry V))
  | [], right => if pollAll ready nOp right.length then some right else none
  | left, [] => if pollAll ready nOp left.length then some left else none
  | p :: left, q :: right =>
    if polled ready nOp then
      if p.nInsertOrder ≤ q.nInsertOrder then
        (mergeRuns ready (nOp + 1) left (q :: right)).map (p :: ·)
      else (mergeRuns ready (nOp + 1) (p :: left) right).map (q :: ·)
    else none
termination_by left right => left.length + right.length

/-- A pass over the array that merges adjacent runs of width `2 ^ k`. -/
def mergePass (ready : ℕ → Bool) (k nOp : ℕ) (ap : List (HashEntry V)) :
    Option (List (HashEntry V)) :=
  if _hap : ap = [] then some []
  else do
    let run ← mergeRuns ready nOp (ap.take (2 ^ k)) ((ap.drop (2 ^ k)).take (2 ^ k))
    let rest ← mergePass ready k (nOp + run.length) (ap.drop (2 * 2 ^ k))
    return run ++ rest
termination_by ap.length
decreasing_by
  have hlen := length_pos_of_ne_nil _hap
  have hpow := Nat.two_pow_pos k
  rw [length_drop]
  omega

/-- The passes from width `2 ^ k` on, each followed by the copy back. -/
def sortPasses (ready : ℕ → Bool) (nEntry k nOp : ℕ) (ap : List (HashEntry V)) :
    Option (List (HashEntry V)) :=
  if _hk : 2 ^ k < nEntry then do
    let aTmp ← mergePass ready k nOp ap
    if pollAll ready (nOp + nEntry) nEntry then
      sortPasses ready nEntry (k + 1) (nOp + 2 * nEntry) aTmp
    else none
  else some ap
termination_by nEntry - 2 ^ k
decreasing_by
  have hpow := Nat.two_pow_pos k
  rw [Nat.pow_succ]
  omega

def hashSortByOrder (ready : ℕ → Bool) (ap : List (HashEntry V)) : Option (List (HashEntry V)) :=
  sortPasses ready ap.length 0 0 ap

/-- What an ordered iteration depends on besides the table: the answers of `Th8_Ready`
in its loops, and whether its two arrays are granted. -/
structure IterEnv where
  readyWalk : ℕ → Bool
  readySort : ℕ → Bool
  readyVisit : ℕ → Bool
  entryGranted : Bool
  tmpGranted : Bool

structure IterEnv.Quiet (env : IterEnv) : Prop where
  walk : ∀ n, env.readyWalk n = true
  sort : ∀ n, env.readySort n = true
  visit : ∀ n, env.readyVisit n = true
  entry : env.entryGranted = true
  tmp : env.tmpGranted = true

/-- The loop of callbacks: whether it returned `TH8_OK`, and the entries visited. -/
def visitLoop (ready : ℕ → Bool) (xCb : HashEntry V → Bool) (i : ℕ) :
    List (HashEntry V) → Bool × List (HashEntry V)
  | [] => (true, [])
  | p :: rest =>
    if polled ready i then
      if xCb p then
        let r := visitLoop ready xCb (i + 1) rest
        (r.1, p :: r.2)
      else (true, [p])
    else (false, [])

def HashTable.entries (t : HashTable V) : List (HashEntry V) :=
  (List.range hashSize).flatMap t.aBucket

/-- The count of live entries, an `int`. -/
def HashTable.nLive (t : HashTable V) : ℤ := wrapInt t.entries.length

/-- `Th8_HashIterateOrdered`: whether it returned `TH8_OK`, and the entries visited.
`xCb` says whether a callback asks for the next entry. -/
def hashIterateOrdered (env : IterEnv) (t : HashTable V) (xCb : HashEntry V → Bool) :
    Bool × List (HashEntry V) :=
  let n := t.entries.length
  if !pollAll env.readyWalk 0 n then (false, [])
  else if t.nLive ≤ 0 then (true, [])
  else if !safeAllocMul env.entryGranted t.nLive.toNat 8 then (false, [])
  else if !safeAllocMul env.tmpGranted t.nLive.toNat 8 then (false, [])
  else if !pollAll env.readyWalk n n then (false, [])
  else
    let apEntry := t.entries.take t.nLive.toNat
    let sorted :=
      if 1 < apEntry.length then hashSortByOrder env.readySort apEntry else some apEntry
    match sorted with
    | none => (false, [])
    | some ap => visitLoop env.readyVisit xCb 0 ap

/-! ## The sort sorts -/

def stampLe (p q : HashEntry V) : Bool := decide (p.nInsertOrder ≤ q.nInsertOrder)

theorem stampLe_trans (p q r : HashEntry V) : stampLe p q → stampLe q r → stampLe p r := by
  simp only [stampLe, decide_eq_true_eq]
  omega

theorem stampLe_total (p q : HashEntry V) : stampLe p q || stampLe q p := by
  simp only [stampLe, Bool.or_eq_true, decide_eq_true_eq]
  omega

variable {ready : ℕ → Bool} {nOp : ℕ} {z : List (HashEntry V)}

theorem mergeRuns_eq_some {left right : List (HashEntry V)}
    (h : mergeRuns ready nOp left right = some z) : z = left.merge right stampLe := by
  fun_induction mergeRuns ready nOp left right generalizing z with
  | case1 nOp right hpoll => simpa using h.symm
  | case2 nOp right hpoll => simp at h
  | case3 nOp left hne hpoll =>
    cases left with
    | nil => exact absurd rfl hne
    | cons p left => simpa using h.symm
  | case4 nOp left hne hpoll => simp at h
  | case5 nOp p left q right hpoll hle ih =>
    obtain ⟨w, hw, rfl⟩ := Option.map_eq_some_iff.mp h
    rw [ih hw, cons_merge_cons_pos]
    simpa [stampLe] using hle
  | case6 nOp p left q right hpoll hle ih =>
    obtain ⟨w, hw, rfl⟩ := Option.map_eq_some_iff.mp h
    rw [ih hw, cons_merge_cons_neg]
    simpa [stampLe] using hle
  | case7 nOp p left q right hpoll => simp at h

theorem mergeRuns_perm {left right : List (HashEntry V)}
    (h : mergeRuns ready nOp left right = some z) : z.Perm (left ++ right) := by
  rw [mergeRuns_eq_some h]
  exact merge_perm_append stampLe

variable {ap : List (HashEntry V)}

theorem mergePass_spec {k : ℕ} (h : mergePass ready k nOp ap = some z)
    (hruns : SortedRuns stampLe (2 ^ k) ap) :
    z.Perm ap ∧ SortedRuns stampLe (2 ^ (k + 1)) z := by
  fun_induction mergePass ready k nOp ap generalizing z with
  | case1 nOp =>
    rw [Option.some.injEq] at h
    subst h
    exact ⟨List.Perm.nil, sortedRuns_nil _⟩
  | case2 nOp ap hap ih =>
    obtain ⟨run, hrun, h⟩ := Option.bind_eq_some_iff.mp h
    obtain ⟨rest, hrest, h⟩ := Option.bind_eq_some_iff.mp h
    have hz : z = run ++ rest := by simpa using h.symm
    have hperm := mergeRuns_perm hrun
    obtain ⟨hpermRest, hrunsRest⟩ := ih run hrest hruns.drop_two
    have hcut : ap.take (2 ^ k) ++ (ap.drop (2 ^ k)).take (2 ^ k) ++ ap.drop (2 * 2 ^ k) = ap := by
      rw [Nat.two_mul, ← drop_drop, append_assoc, take_append_drop, take_append_drop]
    subst hz
    constructor
    · have happend := hperm.append hpermRest
      rwa [hcut] at happend
    · have hsorted : run.Pairwise fun p q => stampLe p q := by
        rw [mergeRuns_eq_some hrun]
        exact pairwise_merge stampLe_trans stampLe_total _ _ hruns.first hruns.second
      have hlen := hperm.length_eq
      rw [length_append, length_take, length_take, length_drop] at hlen
      apply SortedRuns.append hsorted _ hrunsRest
      by_cases hlong : 2 * 2 ^ k ≤ ap.length
      · exact Or.inl (by omega)
      · have hnil : rest = [] := by
          have hdrop : ap.drop (2 * 2 ^ k) = [] := drop_eq_nil_of_le (by omega)
          rw [hdrop] at hpermRest
          exact hpermRest.eq_nil
        exact Or.inr ⟨by omega, hnil⟩

theorem sortPasses_spec {nEntry k : ℕ} (h : sortPasses ready nEntry k nOp ap = some z)
    (hlen : ap.length = nEntry) (hruns : SortedRuns stampLe (2 ^ k) ap) :
    z.Perm ap ∧ z.Pairwise fun p q => stampLe p q := by
  fun_induction sortPasses ready nEntry k nOp ap generalizing z with
  | case1 k nOp ap hk ih =>
    obtain ⟨aTmp, htmp, h⟩ := Option.bind_eq_some_iff.mp h
    obtain ⟨hperm, hruns'⟩ := mergePass_spec htmp hruns
    by_cases hpoll : pollAll ready (nOp + nEntry) nEntry = true
    · rw [if_pos hpoll] at h
      obtain ⟨hperm', hsorted⟩ := ih aTmp h (hperm.length_eq.trans hlen) hruns'
      exact ⟨hperm'.trans hperm, hsorted⟩
    · rw [if_neg hpoll] at h
      simp at h
  | case2 k nOp ap hk =>
    rw [Option.some.injEq] at h
    subst h
    exact ⟨List.Perm.refl _, hruns.pairwise (by omega)⟩

theorem hashSortByOrder_spec (h : hashSortByOrder ready ap = some z) :
    z.Perm ap ∧ z.Pairwise fun p q => stampLe p q :=
  sortPasses_spec h rfl (sortedRuns_one ap)

section Ready

variable {ready : ℕ → Bool} (hready : ∀ n, ready n = true)

include hready

theorem polled_of_ready (nOp : ℕ) : polled ready nOp = true := by
  simp [polled, hready]

theorem pollAll_of_ready (nOp n : ℕ) : pollAll ready nOp n = true := by
  rw [pollAll, all_eq_true]
  intro k _
  exact polled_of_ready hready (nOp + k)

theorem mergeRuns_isSome_of_ready (nOp : ℕ) (left right : List (HashEntry V)) :
    (mergeRuns ready nOp left right).isSome := by
  fun_induction mergeRuns ready nOp left right with
  | case1 nOp right hpoll => rfl
  | case2 nOp right hpoll => exact absurd (pollAll_of_ready hready _ _) hpoll
  | case3 nOp left hne hpoll => rfl
  | case4 nOp left hne hpoll => exact absurd (pollAll_of_ready hready _ _) hpoll
  | case5 nOp p left q right hpoll hle ih => simpa using ih
  | case6 nOp p left q right hpoll hle ih => simpa using ih
  | case7 nOp p left q right hpoll => exact absurd (polled_of_ready hready _) hpoll

theorem mergePass_isSome_of_ready (k nOp : ℕ) (ap : List (HashEntry V)) :
    (mergePass ready k nOp ap).isSome := by
  fun_induction mergePass ready k nOp ap with
  | case1 nOp => rfl
  | case2 nOp ap hap ih =>
    obtain ⟨run, hrun⟩ := Option.isSome_iff_exists.mp
      (mergeRuns_isSome_of_ready hready nOp (ap.take (2 ^ k)) ((ap.drop (2 ^ k)).take (2 ^ k)))
    obtain ⟨rest, hrest⟩ := Option.isSome_iff_exists.mp (ih run)
    simp [hrun, hrest]

theorem sortPasses_isSome_of_ready (nEntry k nOp : ℕ) (ap : List (HashEntry V)) :
    (sortPasses ready nEntry k nOp ap).isSome := by
  fun_induction sortPasses ready nEntry k nOp ap with
  | case1 k nOp ap hk ih =>
    obtain ⟨aTmp, htmp⟩ := Option.isSome_iff_exists.mp (mergePass_isSome_of_ready hready k nOp ap)
    simpa [htmp, pollAll_of_ready hready] using ih aTmp
  | case2 k nOp ap hk => rfl

theorem visitLoop_fst_of_ready (xCb : HashEntry V → Bool) (ap : List (HashEntry V)) :
    ∀ i, (visitLoop ready xCb i ap).1 = true := by
  induction ap with
  | nil => exact fun _ => rfl
  | cons p rest ih =>
    intro i
    by_cases hcb : xCb p = true
    · simpa [visitLoop, polled_of_ready hready, hcb] using ih (i + 1)
    · simp [visitLoop, polled_of_ready hready, hcb]

end Ready

/-! ## What is visited -/

theorem visitLoop_isPrefix (ready : ℕ → Bool) (xCb : HashEntry V → Bool)
    (ap : List (HashEntry V)) : ∀ i, (visitLoop ready xCb i ap).2 <+: ap := by
  induction ap with
  | nil => exact fun _ => prefix_rfl
  | cons p rest ih =>
    intro i
    unfold visitLoop
    split_ifs with hpoll hcb
    · exact (prefix_cons_inj p).mpr (ih (i + 1))
    · exact ⟨rest, rfl⟩
    · exact nil_prefix

theorem visitLoop_eq (ready : ℕ → Bool) {xCb : HashEntry V → Bool}
    (ap : List (HashEntry V)) (hcb : ∀ p ∈ ap, xCb p = true) :
    ∀ i, (visitLoop ready xCb i ap).1 = true → (visitLoop ready xCb i ap).2 = ap := by
  induction ap with
  | nil => exact fun _ _ => rfl
  | cons p rest ih =>
    intro i hok
    have hp := hcb p mem_cons_self
    by_cases hpoll : polled ready i = true
    · simp only [visitLoop, hpoll, hp, if_true] at hok ⊢
      rw [ih (fun q hq => hcb q (mem_cons_of_mem p hq)) (i + 1) hok]
    · simp [visitLoop, hpoll] at hok

namespace Represents

variable {seed : HashSeed} {t : HashTable V} {m : KeyMap V} {live : List (HashEntry V)}

section

variable (h : Represents seed t m live)

include h

theorem mem_bucket {i : ℕ} {p : HashEntry V} :
    p ∈ t.aBucket i ↔ p ∈ live ∧ hashKey seed p.zKey = i := by
  rw [h.chains]
  simp

theorem entries_perm : t.entries.Perm live := by
  have hlive : live.Nodup := h.live_nodup.of_map
  apply (perm_ext_iff_of_nodup ?_ hlive).mpr
  · intro p
    rw [HashTable.entries, mem_flatMap]
    constructor
    · rintro ⟨i, -, hp⟩
      exact (h.mem_bucket.mp hp).1
    · intro hp
      exact ⟨hashKey seed p.zKey, mem_range.mpr (hashKey_lt seed p.zKey),
        h.mem_bucket.mpr ⟨hp, rfl⟩⟩
  · rw [HashTable.entries, nodup_flatMap]
    constructor
    · intro i _
      exact (h.bucket_nodup i).of_map
    · apply List.Pairwise.imp _ nodup_range
      intro i j hij p hi hj
      exact hij ((h.mem_bucket.mp hi).2.symm.trans (h.mem_bucket.mp hj).2)

theorem eq_live_of_sorted (hstamps : m.nInserted ≤ insertOrderMax + 1) {z : List (HashEntry V)}
    (hperm : z.Perm live) (hsorted : z.Pairwise fun p q => stampLe p q) : z = live := by
  have hlt := h.stamps hstamps
  have hne : live.Pairwise fun p q => p.nInsertOrder ≠ q.nInsertOrder :=
    hlt.imp fun h => Nat.ne_of_lt h
  have hle : live.Pairwise fun p q => stampLe p q := by
    refine hlt.imp fun {p q} hpq => ?_
    simpa [stampLe] using Nat.le_of_lt hpq
  refine List.Perm.eq_of_pairwise ?_ hsorted hle hperm
  intro p q hp hq hpq hqp
  by_contra hdiff
  have : Std.Symm fun p q : HashEntry V => p.nInsertOrder ≠ q.nInsertOrder := ⟨fun _ _ h => h.symm⟩
  apply hne.forall (hperm.mem_iff.mp hp) hq hdiff
  simp only [stampLe, decide_eq_true_eq] at hpq hqp
  omega

theorem length_eq : t.entries.length = m.order.length := by
  rw [h.entries_perm.length_eq, ← h.keys, length_map]

theorem nLive_eq (hcount : (m.order.length : ℤ) ≤ cIntMax) : t.nLive = m.order.length := by
  rw [HashTable.nLive, h.length_eq]
  exact wrapInt_of_fits (Int.natCast_nonneg _) hcount

theorem iterateOrdered_cases (hstamps : m.nInserted ≤ insertOrderMax + 1)
    (hcount : (m.order.length : ℤ) ≤ cIntMax) (env : IterEnv) (xCb : HashEntry V → Bool) :
    hashIterateOrdered env t xCb = (false, []) ∨
      hashIterateOrdered env t xCb = visitLoop env.readyVisit xCb 0 live := by
  have hlive := h.nLive_eq hcount
  have hlen := h.length_eq
  unfold hashIterateOrdered
  by_cases hwalk : (!pollAll env.readyWalk 0 t.entries.length) = true
  · exact Or.inl (by simp only [hwalk, if_true])
  by_cases hempty : t.nLive ≤ 0
  · right
    have hnil : live = [] := by
      have hzero : m.order.length = 0 := by omega
      rw [← h.keys, length_map] at hzero
      exact eq_nil_of_length_eq_zero hzero
    simp only [hwalk, hempty, if_true, hnil]
    rfl
  by_cases hentry : (!safeAllocMul env.entryGranted t.nLive.toNat 8) = true
  · exact Or.inl (by simp [hwalk, hempty, hentry])
  by_cases htmp : (!safeAllocMul env.tmpGranted t.nLive.toNat 8) = true
  · exact Or.inl (by simp [hwalk, hempty, hentry, htmp])
  by_cases hcollect : (!pollAll env.readyWalk t.entries.length t.entries.length) = true
  · exact Or.inl (by simp [hwalk, hempty, hentry, htmp, hcollect])
  have htake : t.entries.take t.nLive.toNat = t.entries := by
    apply take_of_length_le
    rw [hlive, hlen]
    simp
  simp only [hwalk, hempty, hentry, htmp, hcollect, htake]
  by_cases hone : 1 < t.entries.length
  · cases hsort : hashSortByOrder env.readySort t.entries with
    | none => exact Or.inl (by simp [hone])
    | some ap =>
      obtain ⟨hperm, hsorted⟩ := hashSortByOrder_spec hsort
      have heq := h.eq_live_of_sorted hstamps (hperm.trans h.entries_perm) hsorted
      exact Or.inr (by simp [hone, heq])
  · -- a single entry is in order as it is
    right
    have hsorted : t.entries.Pairwise fun p q => stampLe p q := by
      apply (sortedRuns_one t.entries).pairwise
      omega
    have heq := h.eq_live_of_sorted hstamps h.entries_perm hsorted
    rw [heq] at hone
    simp [hone, heq]

theorem iterateOrdered_fst (hcount : (m.order.length : ℤ) ≤ cIntMax) {env : IterEnv} (hq :
    env.Quiet)
    (hroom : m.order.length * 8 ≤ mxAlloc) (xCb : HashEntry V → Bool) :
    (hashIterateOrdered env t xCb).1 = true := by
  have hlive := h.nLive_eq hcount
  unfold hashIterateOrdered
  simp only [pollAll_of_ready hq.walk, Bool.not_true]
  by_cases hempty : t.nLive ≤ 0
  · simp [hempty]
  · have hsize : t.nLive.toNat = m.order.length := by omega
    have hgrant : safeAllocMul true t.nLive.toNat 8 = true := by
      rw [hsize]
      exact safeAllocMul_of_le (by omega) (by decide) hroom
    simp only [hempty, hq.entry, hq.tmp, hgrant, Bool.not_true]
    obtain ⟨ap, hap⟩ : ∃ ap, (if 1 < (t.entries.take t.nLive.toNat).length then
          hashSortByOrder env.readySort (t.entries.take t.nLive.toNat)
        else some (t.entries.take t.nLive.toNat)) = some ap := by
      split_ifs
      · exact Option.isSome_iff_exists.mp (sortPasses_isSome_of_ready hq.sort _ _ _ _)
      · exact ⟨_, rfl⟩
    simp only [hap]
    exact visitLoop_fst_of_ready hq.visit xCb ap 0

theorem live_eq_order :
    (live.map fun p => (p.zKey, some p.view)) = m.order.map fun k => (k, m.get k) := by
  rw [← h.keys, map_map]
  apply map_congr_left
  intro p hp
  have hfind := (find?_zKey_eq_some h.live_nodup).mpr ⟨hp, rfl⟩
  simp [h.get_eq, hfind]

end

end Represents

/-! ## The table refines the map -/

structure HashRun.Refines (seed : HashSeed) (r : HashRun V) : Prop where
  keys : ∀ k, (r.map.get k).isSome ↔ k ∈ r.map.order
  nodup : r.map.order.Nodup
  answers : ∀ zKey nKey op,
    (r.table.hashFind seed (keyBytes zKey nKey) op).2.map HashEntry.view =
      (r.map.find (keyBytes zKey nKey) op).2
  count : r.table.nLive = wrapInt r.map.order.length

/-- An iteration visits a part of the live entries, in the order of their insertion,
and all of them, each once, if it succeeds and no callback stops it; and it succeeds
when nothing interrupts it and its arrays can be allocated. -/
structure HashRun.VisitsInOrder (r : HashRun V) (env : IterEnv)
    (xCb : HashEntry V → Bool) : Prop where
  part : (hashIterateOrdered env r.table xCb).2.map (fun p => (p.zKey, some p.view)) <+:
    r.map.order.map fun k => (k, r.map.get k)
  all : (hashIterateOrdered env r.table xCb).1 = true → (∀ p, xCb p = true) →
    (hashIterateOrdered env r.table xCb).2.map (fun p => (p.zKey, some p.view)) =
      r.map.order.map fun k => (k, r.map.get k)
  succeeds : env.Quiet → r.map.order.length * 8 ≤ mxAlloc →
    (hashIterateOrdered env r.table xCb).1 = true

/-- In every run the table refines the map from keys to entries.  As long as the stamps
of the entries are distinct, which they are up to 2 ^ 63 insertions, and an `int` can
count the entries, iteration is in the order of insertion. -/
theorem hashTable_refines {seed : HashSeed} {r : HashRun V}
    (hr : Reachable (HashRun.step seed) HashRun.init r) :
    r.Refines seed ∧
      (r.map.nInserted ≤ 2 ^ 63 → (r.map.order.length : ℤ) ≤ cIntMax →
        ∀ env xCb, r.VisitsInOrder env xCb) := by
  obtain ⟨live, h⟩ := HashRun.represents_of_reachable hr
  constructor
  · constructor
    · intro k
      rw [← not_iff_not, Option.not_isSome_iff_eq_none]
      exact h.get_eq_none
    · exact h.nodup
    · intro zKey nKey op
      exact (h.hashFind _ op).2
    · rw [HashTable.nLive, h.length_eq]
  · intro hstamps hcount env xCb
    have hmax : insertOrderMax + 1 = 2 ^ 63 := by decide
    have horder := h.live_eq_order
    constructor
    · rcases h.iterateOrdered_cases (by omega) hcount env xCb with heq | heq
      · rw [heq]
        exact nil_prefix
      · rw [heq, ← horder]
        exact (visitLoop_isPrefix _ xCb live 0).map _
    · intro hok hcb
      rcases h.iterateOrdered_cases (by omega) hcount env xCb with heq | heq
      · rw [heq] at hok
        simp at hok
      · rw [heq] at hok ⊢
        rw [visitLoop_eq _ live (fun p _ => hcb p) 0 hok, horder]
    · exact fun hq hroom => h.iterateOrdered_fst hcount hq hroom xCb

def defaultSeed : HashSeed := ⟨0x736f6d6570736575, 0x646f72616e646f6d⟩

def insertKey (zKey : Bytes) (id : ℕ) : HashOp Unit :=
  .hashFind zKey (some zKey.length) (.insert true true id)

def removeKey (zKey : Bytes) : HashOp Unit :=
  .hashFind zKey (some zKey.length) .delete

def twoKeys : List (HashOp Unit) := [insertKey (ascii "b") 1, insertKey (ascii "a") 2]

def quietEnv : IterEnv := ⟨fun _ => true, fun _ => true, fun _ => true, true, true⟩

/-- A table with two entries refines its map and visits them in order. -/
theorem hashTable_refines_twoKeys :
    let r := twoKeys.foldl (HashRun.step defaultSeed) HashRun.init
    r.map.order = [ascii "b", ascii "a"] ∧ r.Refines defaultSeed ∧
      ∀ env xCb, r.VisitsInOrder env xCb := by
  have h := hashTable_refines (reachable_foldl (HashRun.step defaultSeed) HashRun.init twoKeys)
  have horder : (twoKeys.foldl (HashRun.step defaultSeed) HashRun.init).map.order =
      [ascii "b", ascii "a"] := by
    decide
  have hcount : (twoKeys.foldl (HashRun.step defaultSeed) HashRun.init).map.nInserted = 2 := by
    decide
  refine ⟨horder, h.1, h.2 ?_ ?_⟩
  · rw [hcount]
    decide
  · rw [horder]
    decide

/-- An empty table that has seen `n` insertions. -/
def churned (n : ℕ) : HashRun Unit :=
  ⟨⟨fun _ => [], min n insertOrderMax⟩, ⟨[], fun _ => none, n⟩⟩

theorem churned_succ (n : ℕ) :
    ((churned n).step defaultSeed (insertKey (ascii "a") 1)).step defaultSeed
      (removeKey (ascii "a")) = churned (n + 1) := by
  have hgrant : HashTable.insertGranted true true (ascii "a") = true := by decide
  have hkey : keyBytes (ascii "a") (some (ascii "a").length) = ascii "a" := by decide
  have hnext : (if n < insertOrderMax then min n insertOrderMax + 1
      else min n insertOrderMax) = min (n + 1) insertOrderMax := by
    split_ifs <;> omega
  simp [churned, insertKey, removeKey, HashRun.step, hkey, HashTable.hashFind, hgrant,
    HashTable.insertEntry, KeyMap.find, KeyMap.insert, KeyMap.remove, hnext]

theorem churned_reachable (n : ℕ) :
    Reachable (HashRun.step defaultSeed) HashRun.init (churned n) := by
  induction n with
  | zero => exact .init
  | succ n ih =>
    rw [← churned_succ n]
    exact .step _ (.step _ ih trivial) trivial

/-- After 2 ^ 63 - 1 insertions the stamps no longer tell two entries apart, and they
are visited in the order of their chains. -/
theorem iterateOrdered_saturated :
    ∃ r : HashRun Unit, Reachable (HashRun.step defaultSeed) HashRun.init r ∧
      r.map.order = [ascii "b", ascii "a"] ∧
      (hashIterateOrdered quietEnv r.table fun _ => true).1 = true ∧
      (hashIterateOrdered quietEnv r.table fun _ => true).2.map (·.zKey) =
        [ascii "a", ascii "b"] := by
  refine ⟨twoKeys.foldl (HashRun.step defaultSeed) (churned insertOrderMax), ?_, ?_, ?_, ?_⟩
  · exact (churned_reachable insertOrderMax).foldl ⟨trivial, trivial, trivial⟩
  · decide
  · decide +kernel
  · decide +kernel

end Th8
