import Mathlib.Data.List.Count
import Mathlib.Data.List.Nodup
import Mathlib.Data.List.Range
import Mathlib.Logic.Function.Basic

/-!
# Reference counts of nested records

Records get numbers as they are made.  A record has children, which are made after it, and
a count: the number of times it is held, by the roots or as a child of a record whose own
count is not zero.  The rules say how the counts change when a record is made, shared,
given to a parent, taken from it, and let go.
-/

namespace Support

open List Nat

open Function (update update_of_ne update_self)

theorem count_flatMap_update {α : Type} [DecidableEq α] {l : List α} (hl : l.Nodup) {a : α}
    (ha : a ∈ l) {f g : α → List ℕ} (hfg : ∀ b, b ≠ a → g b = f b) (n : ℕ) :
    (l.flatMap g).count n + (f a).count n = (l.flatMap f).count n + (g a).count n := by
  induction l with
  | nil => cases ha
  | cons b l ih =>
    obtain ⟨hb, hl⟩ := nodup_cons.mp hl
    simp only [flatMap_cons, count_append]
    rcases mem_cons.mp ha with rfl | ha
    · have hrest : l.flatMap g = l.flatMap f := by
        refine flatMap_congr fun c hc => hfg c ?_
        rintro rfl
        exact hb hc
      rw [hrest]
      omega
    · have hne : b ≠ a := by
        rintro rfl
        exact hb ha
      have hih := ih hl ha
      rw [hfg b hne]
      omega

variable {next : ℕ} {nRef : ℕ → ℕ} {children : ℕ → List ℕ} {roots : List ℕ} {r e : ℕ}

def nested (next : ℕ) (nRef : ℕ → ℕ) (children : ℕ → List ℕ) : List ℕ :=
  (List.range next).flatMap fun r => if nRef r = 0 then [] else children r

structure Counted (next : ℕ) (nRef : ℕ → ℕ) (children : ℕ → List ℕ) (roots : List ℕ) : Prop where
  counted : ∀ r < next, (roots ++ nested next nRef children).count r = nRef r
  bounded : ∀ r ∈ roots ++ nested next nRef children, r < next
  deeper : ∀ r < next, ∀ e ∈ children r, r < e

theorem mem_nested : e ∈ nested next nRef children ↔
    ∃ r < next, nRef r ≠ 0 ∧ e ∈ children r := by
  simp only [nested, mem_flatMap, mem_range]
  refine exists_congr fun r => and_congr_right fun _ => ?_
  split_ifs with h <;> simp [h]

theorem count_nested_update {nRef' : ℕ → ℕ} {children' : ℕ → List ℕ} (hr : r < next)
    (hnRef : ∀ a, a ≠ r → nRef' a = nRef a) (hchildren : ∀ a, a ≠ r → children' a = children a)
    (n : ℕ) :
    (nested next nRef' children').count n + (if nRef r = 0 then [] else children r).count n =
      (nested next nRef children).count n + (if nRef' r = 0 then [] else children' r).count n := by
  refine count_flatMap_update (f := fun a => if nRef a = 0 then [] else children a)
    (g := fun a => if nRef' a = 0 then [] else children' a) nodup_range
    (mem_range.mpr hr) (fun a ha => ?_) n
  rw [hnRef a ha, hchildren a ha]

namespace Counted

theorem nil : Counted 0 nRef children [] :=
  ⟨fun r hr => absurd hr (not_lt_zero r), fun r hr => by simp [nested] at hr,
    fun r hr => absurd hr (not_lt_zero r)⟩

section

variable (h : Counted next nRef children roots)

include h

theorem perm {roots' : List ℕ}
    (hroots : ∀ n, roots'.count n = roots.count n) : Counted next nRef children roots' := by
  have hcount : ∀ n, (roots' ++ nested next nRef children).count n =
      (roots ++ nested next nRef children).count n := by
    intro n
    rw [count_append, count_append, hroots]
  refine ⟨fun r hr => (hcount r).trans (h.counted r hr), fun r hr => h.bounded r ?_, h.deeper⟩
  rwa [← count_pos_iff, ← hcount, count_pos_iff]

theorem pos (hr : r ∈ roots ++ nested next nRef children) : r < next ∧ 0 < nRef r := by
  have hlt := h.bounded r hr
  rw [← h.counted r hlt]
  exact ⟨hlt, count_pos_iff.mpr hr⟩

theorem make :
    Counted (next + 1) (update nRef next 1) (update children next []) (next :: roots) := by
  have hnested : nested (next + 1) (update nRef next 1)
      (update children next []) = nested next nRef children := by
    simp only [nested, range_succ, flatMap_append, flatMap_cons,
      flatMap_nil, update_self, Nat.one_ne_zero, if_false, append_nil]
    refine flatMap_congr fun a ha => ?_
    have hne : a ≠ next := Nat.ne_of_lt (mem_range.mp ha)
    rw [update_of_ne hne, update_of_ne hne]
  refine ⟨fun r hr => ?_, fun r hr => ?_, fun r hr e he => ?_⟩
  · rw [hnested, cons_append, count_cons]
    rcases Nat.lt_succ_iff_lt_or_eq.mp hr with hlt | rfl
    · have hne : r ≠ next := Nat.ne_of_lt hlt
      rw [update_of_ne hne, h.counted r hlt, beq_false_of_ne hne.symm]
      simp
    · have hnone : (roots ++ nested r nRef children).count r = 0 :=
        count_eq_zero_of_not_mem fun hmem => absurd (h.bounded r hmem) (lt_irrefl r)
      simp [hnone]
  · rw [hnested, cons_append] at hr
    rcases mem_cons.mp hr with rfl | hr
    · exact lt_succ_self _
    · exact lt_succ_of_lt (h.bounded r hr)
  · rcases Nat.lt_succ_iff_lt_or_eq.mp hr with hlt | rfl
    · rw [update_of_ne (Nat.ne_of_lt hlt)] at he
      exact h.deeper r hlt e he
    · rw [update_self] at he
      cases he

theorem change {nRef' : ℕ → ℕ}
    {children' : ℕ → List ℕ} {roots' : List ℕ} (hr : r < next)
    (hnRef : ∀ a, a ≠ r → nRef' a = nRef a) (hchildren : ∀ a, a ≠ r → children' a = children a)
    (hdeeper : ∀ e ∈ children' r, r < e)
    (hcount : ∀ n, roots'.count n + (if nRef' r = 0 then [] else children' r).count n +
        (if n = r then nRef r else 0) =
      roots.count n + (if nRef r = 0 then [] else children r).count n +
        (if n = r then nRef' r else 0)) :
    Counted next nRef' children' roots' := by
  have hnested := count_nested_update hr hnRef hchildren
  have hold : ∀ n < next, roots.count n + (nested next nRef children).count n = nRef n := by
    intro n hn
    rw [← count_append]
    exact h.counted n hn
  have hnew : ∀ n < next, roots'.count n + (nested next nRef' children').count n = nRef' n := by
    intro n hn
    have h₁ := hnested n
    have h₂ := hold n hn
    have h₃ := hcount n
    by_cases hnr : n = r
    · subst hnr
      simp only [if_true] at h₃
      omega
    · rw [hnRef n hnr]
      simp only [hnr, if_false] at h₃
      omega
  refine ⟨fun n hn => ?_, fun n hn => ?_, fun a ha e he => ?_⟩
  · rw [count_append]
    exact hnew n hn
  · by_contra hout
    have hnr : n ≠ r := fun heq => hout (heq ▸ hr)
    have h₁ := hnested n
    have h₃ := hcount n
    have hnone : (roots ++ nested next nRef children).count n = 0 :=
      count_eq_zero_of_not_mem fun hmem => hout (h.bounded n hmem)
    have hpos := count_pos_iff.mpr hn
    rw [count_append] at hnone hpos
    simp only [hnr, if_false] at h₃
    omega
  · by_cases har : a = r
    · subst har
      exact hdeeper e he
    · rw [hchildren a har] at he
      exact h.deeper a ha e he

theorem share (hr : r < next) (hpos : 0 < nRef r) :
    Counted next (update nRef r (nRef r + 1)) children (r :: roots) := by
  refine h.change hr (fun a ha => update_of_ne ha _ _) (fun a _ => rfl) (h.deeper r hr) fun n => ?_
  have hne : nRef r ≠ 0 := ne_of_gt hpos
  simp only [update_self, succ_ne_zero, hne, if_false, count_cons]
  by_cases hn : n = r
  · subst hn
    simp only [beq_self_eq_true, if_true]
    omega
  · simp only [beq_false_of_ne (Ne.symm hn), hn, if_false, Bool.false_eq_true, Nat.add_zero]

end

theorem drop (h : Counted next nRef children (r :: roots)) (hmany : nRef r ≠ 1) :
    Counted next (update nRef r (nRef r - 1)) children roots := by
  obtain ⟨hr, hpos⟩ := h.pos (r := r) (by simp)
  refine h.change hr (fun a ha => update_of_ne ha _ _) (fun a _ => rfl) (h.deeper r hr) fun n => ?_
  have hne : nRef r ≠ 0 := ne_of_gt hpos
  have hne' : nRef r - 1 ≠ 0 := by omega
  simp only [update_self, hne, hne', if_false, count_cons]
  by_cases hn : n = r
  · subst hn
    simp only [beq_self_eq_true, if_true]
    omega
  · simp only [beq_false_of_ne (Ne.symm hn), hn, if_false, Bool.false_eq_true, Nat.add_zero]

theorem release (h : Counted next nRef children (r :: roots)) (hlast : nRef r = 1) :
    Counted next (update nRef r 0) children (children r ++ roots) := by
  obtain ⟨hr, -⟩ := h.pos (r := r) (by simp)
  refine h.change hr (fun a ha => update_of_ne ha _ _) (fun a _ => rfl) (h.deeper r hr) fun n => ?_
  simp only [update_self, hlast, Nat.one_ne_zero, if_true, if_false,
    count_cons, count_nil, count_append]
  by_cases hn : n = r
  · subst hn
    simp only [beq_self_eq_true, if_true]
    omega
  · simp only [beq_false_of_ne (Ne.symm hn), hn, if_false, Bool.false_eq_true]
    omega

theorem adopt (h : Counted next nRef children (e :: roots)) (hr : r < next)
    (hpos : 0 < nRef r) (hdeeper : r < e) {children' : List ℕ}
    (hchildren : ∀ n, children'.count n = (e :: children r).count n) :
    Counted next nRef (update children r children') roots := by
  refine h.change hr (fun a _ => rfl) (fun a ha => update_of_ne ha _ _) (fun a ha => ?_) fun n => ?_
  · rw [update_self, ← count_pos_iff, hchildren, count_pos_iff] at ha
    rcases mem_cons.mp ha with rfl | ha
    · exact hdeeper
    · exact h.deeper r hr a ha
  · have hne : nRef r ≠ 0 := ne_of_gt hpos
    simp only [update_self, hne, if_false, hchildren, count_cons]
    omega

theorem orphan (h : Counted next nRef children roots) (hr : r < next) (hpos : 0 < nRef r)
    {children' : List ℕ} (hchildren : ∀ n, (e :: children').count n = (children r).count n) :
    Counted next nRef (update children r children') (e :: roots) := by
  refine h.change hr (fun a _ => rfl) (fun a ha => update_of_ne ha _ _) (fun a ha => ?_) fun n => ?_
  · rw [update_self] at ha
    refine h.deeper r hr a ?_
    rw [← count_pos_iff, ← hchildren, count_pos_iff]
    exact mem_cons_of_mem _ ha
  · have hne : nRef r ≠ 0 := ne_of_gt hpos
    have hcount := hchildren n
    simp only [count_cons] at hcount
    simp only [update_self, hne, if_false, count_cons]
    omega

end Counted

end Support
