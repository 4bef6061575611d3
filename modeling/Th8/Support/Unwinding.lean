import Mathlib.Data.List.Basic

/-!
# Unwinding

A stack of actions.  When an action comes to run it restores a part of the state, and
something may be due by then.  A change that a pending action overwrites does not matter.
-/

namespace Support

open List

variable {ι σ τ : Type} {restore : ι → σ → σ} {due : ι → List ι → σ → Prop} {goal : σ}

/-- The actions run from the top, each finds what is due, and the last one leaves
`goal`. -/
def Unwinds (restore : ι → σ → σ) (due : ι → List ι → σ → Prop) (goal : σ) :
    List ι → σ → Prop
  | [], x => x = goal
  | a :: rest, x => due a rest x ∧ Unwinds restore due goal rest (restore a x)

def unwind (restore : ι → σ → σ) (seg : List ι) (x : σ) : σ :=
  seg.foldl (fun x a => restore a x) x

@[simp]
theorem unwind_nil (x : σ) : unwind restore [] x = x := rfl

@[simp]
theorem unwind_cons (a : ι) (seg : List ι) (x : σ) :
    unwind restore (a :: seg) x = unwind restore seg (restore a x) := rfl

theorem unwind_append (seg rest : List ι) (x : σ) :
    unwind restore (seg ++ rest) x = unwind restore rest (unwind restore seg x) :=
  foldl_append

theorem unwind_filter {p : ι → Bool} (h : ∀ a, p a = false → ∀ x, restore a x = x)
    (seg : List ι) (x : σ) : unwind restore (seg.filter p) x = unwind restore seg x := by
  induction seg generalizing x with
  | nil => rfl
  | cons a seg ih =>
    cases ha : p a with
    | true => rw [filter_cons_of_pos ha, unwind_cons, unwind_cons, ih]
    | false => rw [filter_cons_of_neg (by simp [ha]), ih, unwind_cons, h a ha]

theorem unwind_keeps {seg : List ι} (f : σ → τ)
    (h : ∀ a ∈ seg, ∀ x, f (restore a x) = f x) (x : σ) :
    f (unwind restore seg x) = f x := by
  induction seg generalizing x with
  | nil => rfl
  | cons a seg ih =>
    rw [unwind_cons, ih fun b hb => h b (mem_cons_of_mem a hb)]
    exact h a mem_cons_self x

namespace Unwinds

variable {x : σ}

theorem drop {seg rest : List ι} (h : Unwinds restore due goal (seg ++ rest) x) :
    Unwinds restore due goal rest (unwind restore seg x) := by
  induction seg generalizing x with
  | nil => exact h
  | cons a seg ih => exact ih h.2

theorem prepend {seg rest : List ι} (hdue : ∀ a ∈ seg, ∀ below y, due a below y)
    (h : Unwinds restore due goal rest (unwind restore seg x)) :
    Unwinds restore due goal (seg ++ rest) x := by
  induction seg generalizing x with
  | nil => exact h
  | cons a seg ih =>
    exact ⟨hdue a mem_cons_self _ x, ih (fun b hb => hdue b (mem_cons_of_mem a hb)) h⟩

theorem masked (R : σ → σ → Prop) (masks : ι → Bool) {stack : List ι} {y : σ}
    (hdue : ∀ a below x y, R x y → due a below x → due a below y)
    (hkeep : ∀ a x y, R x y → R (restore a x) (restore a y))
    (hmask : ∀ a x y, masks a → R x y → restore a x = restore a y) (hpending : stack.any masks)
    (hR : R x y) (h : Unwinds restore due goal stack x) :
    Unwinds restore due goal stack y := by
  induction stack generalizing x y with
  | nil => exact absurd hpending (by simp)
  | cons a stack ih =>
    refine ⟨hdue a stack x y hR h.1, ?_⟩
    by_cases ha : masks a
    · rw [← hmask a x y ha hR]
      exact h.2
    · refine ih ?_ (hkeep a x y hR) h.2
      simpa [ha] using hpending

end Unwinds

end Support
