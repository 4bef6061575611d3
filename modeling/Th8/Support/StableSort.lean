import Mathlib.Data.List.Basic
import Mathlib.Data.List.Perm.Basic
import Mathlib.Data.Set.Defs

/-!
# Sorting by merging

Runs, the stretches of an array that a merge reads and writes, and stability.
-/

namespace Support

open List

/-!
## Sorted runs

A list cut into runs of a fixed width, the last of which may be shorter.  A bottom-up
merge sort goes from sorted runs of one width to sorted runs of twice the width.
-/

section Runs

variable {α : Type} {le : α → α → Bool}

/-- Every run of `w` items is sorted. -/
def SortedRuns (le : α → α → Bool) (w : ℕ) (l : List α) : Prop :=
  ∀ i, ((l.drop (i * w)).take w).Pairwise fun a b => le a b

theorem sortedRuns_one (l : List α) : SortedRuns le 1 l := by
  intro i
  cases l.drop (i * 1) with
  | nil => simp
  | cons a rest => simp

variable {w : ℕ} {l : List α}

section

variable (h : SortedRuns le w l)

include h

theorem SortedRuns.pairwise (hlen : l.length ≤ w) : l.Pairwise fun a b => le a b := by
  have h0 := h 0
  rwa [Nat.zero_mul, drop_zero, take_of_length_le hlen] at h0

theorem SortedRuns.first : (l.take w).Pairwise fun a b => le a b := by
  simpa using h 0

theorem SortedRuns.second : ((l.drop w).take w).Pairwise fun a b => le a b := by
  simpa using h 1

theorem SortedRuns.drop_two : SortedRuns le w (l.drop (2 * w)) := by
  intro i
  have hi := h (i + 2)
  rw [drop_drop]
  have hindex : 2 * w + i * w = (i + 2) * w := by
    rw [Nat.add_mul, Nat.add_comm]
  rw [hindex]
  exact hi

end

theorem sortedRuns_nil (w : ℕ) : SortedRuns le w [] := by
  intro i
  simp

theorem SortedRuns.append {z rest : List α} (hz : z.Pairwise fun a b => le a b)
    (hfull : z.length = w ∨ z.length ≤ w ∧ rest = []) (h : SortedRuns le w rest) :
    SortedRuns le w (z ++ rest) := by
  intro i
  cases i with
  | zero =>
    rw [Nat.zero_mul, drop_zero]
    rcases hfull with hlen | ⟨hlen, rfl⟩
    · rwa [take_left' hlen]
    · rwa [append_nil, take_of_length_le hlen]
  | succ i =>
    rcases hfull with hlen | ⟨hlen, rfl⟩
    · have hindex : (i + 1) * w = w + i * w := by
        rw [Nat.add_mul, Nat.one_mul, Nat.add_comm]
      rw [hindex, ← drop_drop, drop_left' hlen]
      exact h i
    · have hle : (z ++ []).length ≤ (i + 1) * w := by
        rw [append_nil]
        exact Nat.le_trans hlen (Nat.le_mul_of_pos_left w (Nat.succ_pos i))
      rw [drop_eq_nil_of_le hle]
      simp

end Runs

/-!
## Stretches of an array

The entries between two indices of an array, and an array in which the entries from an index
on have been overwritten.  Loops that read or write one entry at a time work on both from
the front.
-/

section Stretch

variable {α : Type}

/-- The entries from index `i` up to index `j`. -/
def stretch (l : List α) (i j : ℕ) : List α := (l.take j).drop i

/-- The array after `new` has been written from index `k` on. -/
def overwrite (l : List α) (k : ℕ) (new : List α) : List α :=
  l.take k ++ new ++ l.drop (k + new.length)

variable {l : List α} {i j : ℕ}

theorem stretch_eq_nil (h : j ≤ i) : stretch l i j = [] := by
  apply drop_eq_nil_of_le
  exact Nat.le_trans (length_take_le j l) h

theorem stretch_length (hj : j ≤ l.length) : (stretch l i j).length = j - i := by
  rw [stretch, length_drop, length_take, Nat.min_eq_left hj]

theorem stretch_eq_cons (hij : i < j) (hj : j ≤ l.length) :
    stretch l i j = l[i] :: stretch l (i + 1) j := by
  have hi : i < (l.take j).length := by
    rw [length_take, Nat.min_eq_left hj]
    exact hij
  rw [stretch, drop_eq_getElem_cons hi, getElem_take, stretch]

theorem stretch_all (l : List α) : stretch l 0 l.length = l := by
  rw [stretch, take_length, drop_zero]

theorem stretch_min (l : List α) (i w : ℕ) :
    stretch l i (min (i + w) l.length) = (l.drop i).take w := by
  rw [stretch, ← take_take, take_length, drop_take, Nat.add_sub_cancel_left]

theorem overwrite_nil (l : List α) (k : ℕ) : overwrite l k [] = l := by
  rw [overwrite, append_nil, length_nil, Nat.add_zero, take_append_drop]

variable {new : List α} {k : ℕ}

theorem overwrite_set {x : α} (hk : k < l.length) :
    overwrite (l.set k x) (k + 1) new = overwrite l k (x :: new) := by
  have htake : (l.set k x).take (k + 1) = l.take k ++ [x] := by
    have hlen : (l.take k).length = k := by
      rw [length_take, Nat.min_eq_left (Nat.le_of_lt hk)]
    rw [take_set, take_succ_eq_append_getElem hk,
      set_append_right _ _ (Nat.le_of_eq hlen), hlen, Nat.sub_self, set_cons_zero]
  have hdrop : (l.set k x).drop (k + 1 + new.length) = l.drop (k + (x :: new).length) := by
    rw [drop_set_of_lt (by omega), length_cons]
    congr 1
    omega
  rw [overwrite, overwrite, htake, hdrop, append_assoc, append_assoc, append_assoc]
  rfl

theorem overwrite_overwrite {new' : List α} (hk : k + new.length ≤ l.length) :
    overwrite (overwrite l k new) (k + new.length) new' = overwrite l k (new ++ new') := by
  have hlen : (l.take k ++ new).length = k + new.length := by
    rw [length_append, length_take, Nat.min_eq_left (by omega)]
  rw [overwrite, overwrite, overwrite, take_left' hlen, drop_append, hlen,
    drop_eq_nil_of_le (by omega), nil_append, drop_drop, length_append, append_assoc (l.take k)]
  congr 2
  omega

theorem take_overwrite (hk : k ≤ l.length) :
    (overwrite l k new).take (k + new.length) = l.take k ++ new := by
  apply take_left'
  rw [length_append, length_take, Nat.min_eq_left hk]

theorem overwrite_all (h : l.length = new.length) : overwrite l 0 new = new := by
  rw [overwrite, Nat.zero_add, ← h, drop_length, append_nil, take_zero, nil_append]

theorem zip_set {β : Type} (xs : List α) (ys : List β) (i : ℕ) (x : α) (y : β) :
    (xs.set i x).zip (ys.set i y) = (xs.zip ys).set i (x, y) := by
  induction xs generalizing ys i with
  | nil => simp
  | cons x' xs ih =>
    cases ys with
    | nil => simp
    | cons y' ys =>
      cases i with
      | zero => rfl
      | succ i => simp [ih]

end Stretch

/-!
## Stable sorting by merging

A stable sort keeps the order of the items that the comparison does not tell apart.  The
comparison has to be a total preorder on the items at hand only.  Merging two stably sorted
lists sorts their concatenation stably, and a bottom-up sort is a sequence of passes, each of
which merges neighbouring runs.
-/

section MergeSort

variable {α : Type} {le : α → α → Prop} {S : Set α}

structure TotalPreorderOn (le : α → α → Prop) (S : Set α) : Prop where
  total : ∀ a ∈ S, ∀ b ∈ S, le a b ∨ le b a
  trans : ∀ a ∈ S, ∀ b ∈ S, ∀ c ∈ S, le a b → le b c → le a c

/-- `zs` is the merge of two lists, in which the left one wins a tie. -/
inductive Merged (le : α → α → Prop) : List α → List α → List α → Prop
  | leftDone (ys : List α) : Merged le [] ys ys
  | rightDone (xs : List α) : Merged le xs [] xs
  | takeLeft {x y : α} {xs ys zs : List α} (hle : le x y)
      (hrest : Merged le xs (y :: ys) zs) : Merged le (x :: xs) (y :: ys) (x :: zs)
  | takeRight {x y : α} {xs ys zs : List α} (hle : ¬le x y)
      (hrest : Merged le (x :: xs) ys zs) : Merged le (x :: xs) (y :: ys) (y :: zs)

namespace Merged

variable {xs ys zs : List α}

section

variable (h : Merged le xs ys zs)

include h

theorem perm : zs.Perm (xs ++ ys) := by
  induction h with
  | leftDone ys => exact List.Perm.refl _
  | rightDone xs => rw [append_nil]
  | takeLeft hle hrest ih => exact ih.cons _
  | takeRight hle hrest ih => exact (ih.cons _).trans perm_middle.symm

theorem mem {a : α} : a ∈ zs ↔ a ∈ xs ∨ a ∈ ys := by
  rw [h.perm.mem_iff, mem_append]

theorem sorted (hS : TotalPreorderOn le S) (hxS : ∀ a ∈ xs, a ∈ S)
    (hyS : ∀ a ∈ ys, a ∈ S) (hxs : xs.Pairwise le) (hys : ys.Pairwise le) :
    zs.Pairwise le := by
  induction h with
  | leftDone ys => exact hys
  | rightDone xs => exact hxs
  | @takeLeft x y xs ys zs hle hrest ih =>
    obtain ⟨hx, hxs'⟩ := pairwise_cons.mp hxs
    obtain ⟨hy, -⟩ := pairwise_cons.mp hys
    obtain ⟨hxS₀, hxS'⟩ := forall_mem_cons.mp hxS
    obtain ⟨hyS₀, hyS'⟩ := forall_mem_cons.mp hyS
    refine pairwise_cons.mpr ⟨fun a ha => ?_, ih hxS' hyS hxs' hys⟩
    rcases hrest.mem.mp ha with ha | ha
    · exact hx a ha
    · rcases mem_cons.mp ha with rfl | ha
      · exact hle
      · exact hS.trans x hxS₀ y hyS₀ a (hyS' a ha) hle (hy a ha)
  | @takeRight x y xs ys zs hle hrest ih =>
    obtain ⟨hx, -⟩ := pairwise_cons.mp hxs
    obtain ⟨hy, hys'⟩ := pairwise_cons.mp hys
    obtain ⟨hxS₀, hxS'⟩ := forall_mem_cons.mp hxS
    obtain ⟨hyS₀, hyS'⟩ := forall_mem_cons.mp hyS
    have hyx : le y x := (hS.total x hxS₀ y hyS₀).resolve_left hle
    refine pairwise_cons.mpr ⟨fun a ha => ?_, ih hxS hyS' hxs hys'⟩
    rcases hrest.mem.mp ha with ha | ha
    · rcases mem_cons.mp ha with rfl | ha
      · exact hyx
      · exact hS.trans y hyS₀ x hxS₀ a (hxS' a ha) hyx (hx a ha)
    · exact hy a ha

end

end Merged

/-- `l'` is what a pass over the runs of `w` items makes of `l`. -/
inductive MergePass (le : α → α → Prop) (w : ℕ) : List α → List α → Prop
  | nil : MergePass le w [] []
  | runs {l run rest : List α} (hrun : Merged le (l.take w) ((l.drop w).take w) run)
      (hrest : MergePass le w (l.drop (2 * w)) rest) : MergePass le w l (run ++ rest)

theorem MergePass.perm {w : ℕ} {l l' : List α} (h : MergePass le w l l') : l'.Perm l := by
  induction h with
  | nil => exact List.Perm.refl _
  | @runs l run rest hrun hrest ih =>
    have hcut : l.take w ++ (l.drop w).take w ++ l.drop (2 * w) = l := by
      rw [Nat.two_mul, ← drop_drop, append_assoc, take_append_drop, take_append_drop]
    have hperm := hrun.perm.append ih
    rwa [hcut] at hperm

section Stable

variable [DecidableRel le]

variable (le) in
/-- The items that the comparison does not tell from `a`, in their order. -/
def tiedWith (a : α) (l : List α) : List α := l.filter fun b => decide (le a b ∧ le b a)

theorem tiedWith_append (a : α) (xs ys : List α) :
    tiedWith le a (xs ++ ys) = tiedWith le a xs ++ tiedWith le a ys :=
  filter_append xs ys

theorem tiedWith_cons (a b : α) (l : List α) :
    tiedWith le a (b :: l) = tiedWith le a [b] ++ tiedWith le a l :=
  tiedWith_append a [b] l

/-- `ys` is `xs` sorted stably, where the comparison is used on the items of `S`. -/
structure StableSort (le : α → α → Prop) [DecidableRel le] (S : Set α) (xs ys : List α) : Prop where
  perm : ys.Perm xs
  sorted : ys.Pairwise le
  stable : ∀ a ∈ S, tiedWith le a ys = tiedWith le a xs

variable {xs : List α}

theorem StableSort.of_length_le_one (h : xs.length ≤ 1) : StableSort le S xs xs where
  perm := List.Perm.refl xs
  sorted := by
    match xs, h with
    | [], _ => exact List.Pairwise.nil
    | [a], _ => exact pairwise_singleton le a
  stable _ _ := rfl

namespace Merged

variable {xs ys zs : List α}

theorem tied_eq_nil (hS : TotalPreorderOn le S) {x y a : α} (haS : a ∈ S) (hyS : y ∈ S)
    (hxS : ∀ b ∈ x :: xs, b ∈ S) (hxs : (x :: xs).Pairwise le) (hlt : ¬le x y)
    (hay : le a y) : tiedWith le a (x :: xs) = [] := by
  obtain ⟨hx, -⟩ := pairwise_cons.mp hxs
  have hxS₀ := hxS x mem_cons_self
  refine filter_eq_nil_iff.mpr fun b hb htied => hlt ?_
  obtain ⟨-, hba⟩ := of_decide_eq_true htied
  have hbS := hxS b hb
  have hby : le b y := hS.trans b hbS a haS y hyS hba hay
  rcases mem_cons.mp hb with rfl | hb
  · exact hby
  · exact hS.trans x hxS₀ b hbS y hyS (hx b hb) hby

theorem tiedWith_eq (h : Merged le xs ys zs) (hS : TotalPreorderOn le S)
    (hxS : ∀ a ∈ xs, a ∈ S) (hyS : ∀ a ∈ ys, a ∈ S) (hxs : xs.Pairwise le) {a : α}
    (haS : a ∈ S) : tiedWith le a zs = tiedWith le a (xs ++ ys) := by
  induction h with
  | leftDone ys => rfl
  | rightDone xs => rw [append_nil]
  | @takeLeft x y xs ys zs hle hrest ih =>
    have hrec := ih (forall_mem_cons.mp hxS).2 hyS (pairwise_cons.mp hxs).2
    rw [tiedWith_cons a x zs, hrec, cons_append, tiedWith_cons a x (xs ++ y :: ys)]
  | @takeRight x y xs ys zs hle hrest ih =>
    obtain ⟨hyS₀, hyS'⟩ := forall_mem_cons.mp hyS
    have hrec := ih hxS hyS' hxs
    rw [tiedWith_cons, hrec, tiedWith_append, tiedWith_append, tiedWith_cons a y ys]
    by_cases htied : le a y ∧ le y a
    · rw [tied_eq_nil hS haS hyS₀ hxS hxs hle htied.1]
      rfl
    · have hnone : tiedWith le a [y] = [] := by
        simp [tiedWith, htied]
      rw [hnone]
      rfl

theorem stableSort {xs' ys' : List α} (h : Merged le xs' ys' zs) (hS : TotalPreorderOn le S)
    (hxS : ∀ a ∈ xs, a ∈ S) (hyS : ∀ a ∈ ys, a ∈ S) (hxs : StableSort le S xs xs')
    (hys : StableSort le S ys ys') : StableSort le S (xs ++ ys) zs := by
  have hxS' : ∀ a ∈ xs', a ∈ S := fun a ha => hxS a (hxs.perm.mem_iff.mp ha)
  have hyS' : ∀ a ∈ ys', a ∈ S := fun a ha => hyS a (hys.perm.mem_iff.mp ha)
  refine ⟨h.perm.trans (hxs.perm.append hys.perm), h.sorted hS hxS' hyS' hxs.sorted hys.sorted,
    fun a ha => ?_⟩
  rw [h.tiedWith_eq hS hxS' hyS' hxs.sorted ha, tiedWith_append, tiedWith_append,
    hxs.stable a ha, hys.stable a ha]

end Merged

/-- Every run of `w` items of `ys` is the run of `xs` at the same place, sorted stably. -/
def StableRuns (le : α → α → Prop) [DecidableRel le] (S : Set α) (w : ℕ) (xs ys : List α) : Prop :=
  xs.length = ys.length ∧ ∀ i, StableSort le S ((xs.drop (i * w)).take w) ((ys.drop (i * w)).take w)

theorem stableRuns_one (xs : List α) : StableRuns le S 1 xs xs :=
  ⟨rfl, fun _ => .of_length_le_one (length_take_le _ _)⟩

variable {w : ℕ} {ys : List α}

theorem StableRuns.stableSort (h : StableRuns le S w xs ys) (hlen : xs.length ≤ w) :
    StableSort le S xs ys := by
  have h0 := h.2 0
  rw [Nat.zero_mul, drop_zero, drop_zero, take_of_length_le hlen,
    take_of_length_le (h.1 ▸ hlen)] at h0
  exact h0

theorem StableRuns.drop (h : StableRuns le S w xs ys) (n : ℕ) :
    StableRuns le S w (xs.drop (n * w)) (ys.drop (n * w)) := by
  refine ⟨by rw [length_drop, length_drop, h.1], fun i => ?_⟩
  have hi := h.2 (n + i)
  rwa [Nat.add_mul, ← drop_drop, ← drop_drop] at hi

theorem StableRuns.append {xrest yrest : List α} (hrun : StableSort le S xs ys)
    (hfull : xs.length = w ∨ xs.length ≤ w ∧ xrest = []) (hrest : StableRuns le S w xrest yrest) :
    StableRuns le S w (xs ++ xrest) (ys ++ yrest) := by
  have hlen := hrun.perm.length_eq
  refine ⟨by rw [length_append, length_append, hlen, hrest.1], fun i => ?_⟩
  rcases hfull with hw | ⟨hw, rfl⟩
  · rcases i with _ | i
    · rw [Nat.zero_mul, drop_zero, drop_zero, take_left' hw, take_left' (hlen.trans hw)]
      exact hrun
    · rw [Nat.succ_mul, Nat.add_comm, ← drop_drop, ← drop_drop, drop_left' hw,
        drop_left' (hlen.trans hw)]
      exact hrest.2 i
  · obtain rfl : yrest = [] := eq_nil_of_length_eq_zero hrest.1.symm
    rw [append_nil, append_nil]
    rcases i with _ | i
    · rw [Nat.zero_mul, drop_zero, drop_zero, take_of_length_le hw, take_of_length_le (hlen ▸ hw)]
      exact hrun
    · have hpast : xs.length ≤ (i + 1) * w :=
        Nat.le_trans hw (Nat.le_mul_of_pos_left w (Nat.succ_pos i))
      rw [drop_eq_nil_of_le hpast, drop_eq_nil_of_le (hlen ▸ hpast)]
      exact .of_length_le_one (by simp)

theorem MergePass.stableRuns {l l' : List α} (h : MergePass le w l l') (hS : TotalPreorderOn le S)
    (hxS : ∀ a ∈ xs, a ∈ S) (hruns : StableRuns le S w xs l) :
    StableRuns le S (2 * w) xs l' := by
  induction h generalizing xs with
  | nil =>
    obtain rfl : xs = [] := eq_nil_of_length_eq_zero hruns.1
    exact ⟨rfl, fun i => by simpa using .of_length_le_one (by simp)⟩
  | @runs l run rest hrun hrest ih =>
    have hcut : xs.take (2 * w) = xs.take w ++ (xs.drop w).take w := by
      rw [Nat.two_mul, take_add]
    have hfirst := hruns.2 0
    have hsecond := hruns.2 1
    rw [Nat.zero_mul, drop_zero, drop_zero] at hfirst
    rw [Nat.one_mul] at hsecond
    have hsorted : StableSort le S (xs.take (2 * w)) run := by
      rw [hcut]
      exact hrun.stableSort hS (fun a ha => hxS a (mem_of_mem_take ha))
        (fun a ha => hxS a (mem_of_mem_drop (mem_of_mem_take ha))) hfirst hsecond
    have htail := ih (fun a ha => hxS a (mem_of_mem_drop ha)) (hruns.drop 2)
    rw [← take_append_drop (2 * w) xs]
    apply StableRuns.append hsorted _ htail
    rw [length_take]
    by_cases hlong : 2 * w ≤ xs.length
    · exact Or.inl (Nat.min_eq_left hlong)
    · exact Or.inr ⟨Nat.min_le_left _ _, drop_eq_nil_of_le (Nat.le_of_not_le hlong)⟩

end Stable

end MergeSort

end Support
