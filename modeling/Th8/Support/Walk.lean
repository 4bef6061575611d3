import Mathlib.Data.Set.Finite.Basic
import Mathlib.Tactic.Ring

/-!
# Walks along a partial function

A walk follows a partial function from a starting point until the function is
undefined.  The function may depend on the number of the step.  A walk along a fixed
function through finitely many points stops exactly when it visits no point twice.
-/

namespace Support

open Option

variable {α : Type}

/-- The point reached after `n` steps, where the next step has number `t`. -/
def walk (next : ℕ → α → Option α) : ℕ → ℕ → α → Option α
  | _, 0, a => some a
  | t, n + 1, a => (next t a).bind (walk next (t + 1) n)

variable {next : ℕ → α → Option α} {t : ℕ} {a b : α}

@[simp] theorem walk_zero : walk next t 0 a = some a := rfl

theorem walk_succ (n : ℕ) :
    walk next t (n + 1) a = (next t a).bind (walk next (t + 1) n) := rfl

theorem walk_add (m n : ℕ) :
    walk next t (m + n) a = (walk next t m a).bind (walk next (t + m) n) := by
  induction m generalizing t a with
  | zero => simp
  | succ m ih =>
    have hindex : m + 1 + n = (m + n) + 1 := by omega
    rw [hindex, walk_succ, walk_succ, bind_assoc]
    refine bind_congr fun c _ => ?_
    rw [ih, show t + 1 + m = t + (m + 1) by omega]

theorem walk_succ_right (n : ℕ) :
    walk next t (n + 1) a = (walk next t n a).bind (next (t + n)) := by
  rw [walk_add]
  refine bind_congr fun c _ => ?_
  cases h : next (t + n) c <;> simp [walk_succ, h]

theorem walk_none_of_le {m n : ℕ} (hle : m ≤ n) (h : walk next t m a = none) :
    walk next t n a = none := by
  obtain ⟨k, rfl⟩ := Nat.exists_eq_add_of_le hle
  rw [walk_add, h, bind_none]

theorem exists_last_of_stops {n : ℕ} (h : walk next t n a = none) :
    ∃ k b, walk next t k a = some b ∧ walk next t (k + 1) a = none := by
  induction n with
  | zero => cases h
  | succ n ih =>
    cases hn : walk next t n a with
    | none => exact ih hn
    | some b => exact ⟨n, b, hn, h⟩

theorem last_unique {k l : ℕ} {b c : α} (hk : walk next t k a = some b)
    (hk' : walk next t (k + 1) a = none) (hl : walk next t l a = some c)
    (hl' : walk next t (l + 1) a = none) : k = l ∧ b = c := by
  have hle : ∀ {i j : ℕ} {d : α}, walk next t i a = some d →
      walk next t (j + 1) a = none → i ≤ j := by
    intro i j d hi hj
    by_contra hlt
    rw [walk_none_of_le (by omega) hj] at hi
    cases hi
  obtain rfl := le_antisymm (hle hk hl') (hle hl hk')
  exact ⟨rfl, some.inj (hk.symm.trans hl)⟩

section Fixed

variable {next : α → Option α}

theorem walk_fixed (t u n : ℕ) (a : α) :
    walk (fun _ => next) t n a = walk (fun _ => next) u n a := by
  induction n generalizing t u a with
  | zero => rfl
  | succ n ih =>
    rw [walk_succ, walk_succ]
    exact bind_congr fun c _ => ih _ _ _

theorem walk_cycle {i d : ℕ} (hi : walk (fun _ => next) t i a = some b)
    (hd : walk (fun _ => next) t (i + d) a = some b) (k : ℕ) :
    walk (fun _ => next) t (i + k * d) a = some b := by
  have hloop : walk (fun _ => next) t d b = some b := by
    rw [walk_add, hi, bind_some] at hd
    rwa [walk_fixed t (t + i)]
  induction k with
  | zero => simpa using hi
  | succ k ih =>
    rw [show i + (k + 1) * d = (i + k * d) + d by ring, walk_add, ih,
      bind_some, walk_fixed _ t, hloop]

theorem walk_injective_of_stops {n : ℕ} (hn : walk (fun _ => next) t n a = none)
    {i j : ℕ} (hi : walk (fun _ => next) t i a = some b)
    (hj : walk (fun _ => next) t j a = some b) : i = j := by
  wlog hij : i ≤ j generalizing i j with hsymm
  · exact (hsymm hj hi (by omega)).symm
  by_contra hne
  obtain ⟨d, rfl⟩ := Nat.exists_eq_add_of_le hij
  have hfar : n ≤ i + n * d := le_trans (Nat.le_mul_of_pos_right n (by omega)) (Nat.le_add_left _ _)
  have hcycle := walk_cycle hi hj n
  rw [walk_none_of_le hfar hn] at hcycle
  simp at hcycle

theorem walk_stops_iff (hfinite : {b | ∃ n, walk (fun _ => next) t (n + 1) a = some b}.Finite) :
    (∃ n, walk (fun _ => next) t n a = none) ↔
      ∀ i j b, walk (fun _ => next) t i a = some b →
        walk (fun _ => next) t j a = some b → i = j := by
  refine ⟨fun ⟨n, hn⟩ i j b hi hj => walk_injective_of_stops hn hi hj, fun hinj => ?_⟩
  by_contra hgoes
  have hsome : ∀ n, ∃ b, walk (fun _ => next) t n a = some b := by
    intro n
    exact ne_none_iff_exists'.mp fun h => hgoes ⟨n, h⟩
  choose point hpoint using hsome
  -- an infinite walk without repetitions has infinitely many points
  have hinjective : Function.Injective fun n => point (n + 1) := by
    intro i j hij
    have hj : walk (fun _ => next) t (j + 1) a = some (point (i + 1)) :=
      (hpoint (j + 1)).trans (congrArg some hij.symm)
    exact Nat.succ_injective (hinj _ _ _ (hpoint (i + 1)) hj)
  refine Set.infinite_range_of_injective hinjective (hfinite.subset ?_)
  rintro _ ⟨n, rfl⟩
  exact ⟨n, hpoint (n + 1)⟩

end Fixed

end Support
