import Mathlib.Data.List.Basic

/-!
# Loops that consume their input

A scanner is a loop that reads a state, emits a list of outputs, and either stops
with a result or goes on from a smaller state.  The measure and the proof that it
decreases are fields, so running a scanner needs neither a bound on the number of
rounds nor a default result, and the run still computes by structural recursion.
-/

namespace Support

/-- A loop over states `α` that emits outputs `γ` and ends with a result `β`. -/
structure Scanner (α γ β : Type) where
  step : α → List γ × (α ⊕ β)
  measure : α → ℕ
  decreases : ∀ {a out a'}, step a = (out, .inl a') → measure a' < measure a

namespace Scanner

variable {α γ β : Type} (S : Scanner α γ β)

/-- At most `n` rounds, which the measure shows to be enough. -/
def runWithin : (n : ℕ) → (a : α) → S.measure a < n → List γ × β
  | 0, _, h => absurd h (Nat.not_lt_zero _)
  | n + 1, a, h =>
    match hstep : S.step a with
    | (out, .inr b) => (out, b)
    | (out, .inl a') =>
      let r := runWithin n a' (Nat.lt_of_lt_of_le (S.decreases hstep) (Nat.le_of_lt_succ h))
      (out ++ r.1, r.2)

def run (a : α) : List γ × β :=
  S.runWithin (S.measure a + 1) a (Nat.lt_succ_self _)

variable {a : α}

theorem runWithin_congr {m n : ℕ} (hm : S.measure a < m) (hn : S.measure a < n) :
    S.runWithin m a hm = S.runWithin n a hn := by
  induction m generalizing n a with
  | zero => exact absurd hm (Nat.not_lt_zero _)
  | succ m ih =>
    cases n with
    | zero => exact absurd hn (Nat.not_lt_zero _)
    | succ n =>
      unfold runWithin
      split
      · rfl
      · rename_i out a' hstep
        rw [ih]

theorem run_of_stop {out : List γ} {b : β} (h : S.step a = (out, .inr b)) : S.run a = (out, b) := by
  unfold run runWithin
  split
  · rename_i out' b' hstep
    rw [h] at hstep
    cases hstep
    rfl
  · rename_i out' a' hstep
    rw [h] at hstep
    cases hstep

theorem run_of_next {a' : α} {out : List γ} (h : S.step a = (out, .inl a')) :
    S.run a = (out ++ (S.run a').1, (S.run a').2) := by
  conv_lhs => unfold run runWithin
  split
  · rename_i out' b' hstep
    rw [h] at hstep
    cases hstep
  · rename_i out' a'' hstep
    rw [h] at hstep
    cases hstep
    rw [run, S.runWithin_congr (n := S.measure a' + 1) _ (Nat.lt_succ_self _)]

theorem run_congr {b : α} (h : S.step a = S.step b) : S.run a = S.run b := by
  rcases hb : S.step b with ⟨out, b' | r⟩
  · rw [S.run_of_next (h.trans hb), S.run_of_next hb]
  · rw [S.run_of_stop (h.trans hb), S.run_of_stop hb]

theorem induction {motive : α → Prop} (stop : ∀ a out b, S.step a = (out, .inr b) → motive a)
    (next : ∀ a out a', S.step a = (out, .inl a') → motive a' → motive a) (a : α) :
    motive a := by
  induction hn : S.measure a using Nat.strongRecOn generalizing a with
  | ind n ih =>
    rcases hstep : S.step a with ⟨out, a' | b⟩
    · exact next a out a' hstep (ih _ (hn ▸ S.decreases hstep) a' rfl)
    · exact stop a out b hstep

end Scanner

end Support
