import Mathlib.Logic.Function.Basic

/-!
# Runs of a state machine

The states a machine reaches from an initial state, by steps that all meet a
condition, and the rule that carries an invariant along such a run.
-/

namespace Support

variable {σ ι : Type}

/-- The states reached from `init` by steps for which `allowed` holds. -/
inductive ReachableBy (step : σ → ι → σ) (allowed : σ → ι → Prop) (init : σ) : σ → Prop where
  | init : ReachableBy step allowed init init
  | step {s : σ} (i : ι) (hs : ReachableBy step allowed init s) (hi : allowed s i) :
      ReachableBy step allowed init (step s i)

/-- The states reached from `init` by any steps. -/
abbrev Reachable (step : σ → ι → σ) (init : σ) : σ → Prop :=
  ReachableBy step (fun _ _ => True) init

namespace ReachableBy

variable {step : σ → ι → σ} {allowed : σ → ι → Prop} {init : σ}

theorem invariant {I : σ → Prop} (hinit : I init)
    (hstep : ∀ s i, I s → allowed s i → I (step s i)) {s : σ}
    (hs : ReachableBy step allowed init s) : I s := by
  induction hs with
  | init => exact hinit
  | step i hs hi ih => exact hstep _ i ih hi

/-- The rule for a machine whose step can fail and leaves no state when it does. -/
theorem invariant_some {step : Option σ → ι → Option σ} {allowed : Option σ → ι → Prop}
    {init s : σ} {I : σ → Prop} (hinit : I init) (hnone : ∀ i, step none i = none)
    (hstep : ∀ s i s', I s → allowed (some s) i → step (some s) i = some s' → I s')
    (hs : ReachableBy step allowed (some init) (some s)) : I s := by
  refine hs.invariant (I := fun o => ∀ s ∈ o, I s) ?_ ?_ s rfl
  · rintro s ⟨⟩
    exact hinit
  · intro o i ho hi s' hrun
    cases o with
    | none => rw [hnone] at hrun; cases hrun
    | some s => exact hstep s i s' (ho s rfl) hi hrun

def AllowedRun (step : σ → ι → σ) (allowed : σ → ι → Prop) : σ → List ι → Prop
  | _, [] => True
  | s, i :: is => allowed s i ∧ AllowedRun step allowed (step s i) is

instance instDecidableAllowedRun [∀ s i, Decidable (allowed s i)] :
    ∀ (s : σ) (is : List ι), Decidable (AllowedRun step allowed s is)
  | _, [] => inferInstanceAs (Decidable True)
  | s, i :: is =>
    have := instDecidableAllowedRun (step s i) is
    inferInstanceAs (Decidable (allowed s i ∧ AllowedRun step allowed (step s i) is))

theorem allowedRun_append {s : σ} {is js : List ι} :
    AllowedRun step allowed s (is ++ js) ↔
      AllowedRun step allowed s is ∧ AllowedRun step allowed (is.foldl step s) js := by
  induction is generalizing s with
  | nil => exact (and_iff_right trivial).symm
  | cons i is ih => exact (and_congr_right' ih).trans and_assoc.symm

theorem foldl {s : σ} {is : List ι} (hs : ReachableBy step allowed init s)
    (his : AllowedRun step allowed s is) :
    ReachableBy step allowed init (is.foldl step s) := by
  induction is generalizing s with
  | nil => exact hs
  | cons i is ih => exact ih (hs.step i his.1) his.2

end ReachableBy

theorem reachable_foldl (step : σ → ι → σ) (init : σ) (is : List ι) :
    Reachable step init (is.foldl step init) := by
  have key : ∀ s, Reachable step init s → Reachable step init (is.foldl step s) := by
    induction is with
    | nil => exact fun s hs => hs
    | cons i is ih => exact fun s hs => ih _ (.step i hs trivial)
  exact key init .init

end Support
