import Mathlib.Logic.Basic

/-!
# Programs that call operations

A program calls the operations of an interface and goes on with what each call returns.
It says nothing about what the operations do, so whatever each allowed call keeps is
kept by every program whose calls are allowed.  Programs that go from one assertion to
another are composed by the rules for `Ensures`.
-/

namespace Support

variable {Op σ α β ε : Type} {Out : Op → Type}

/-- A program over the operations `Op`, which return what `Out` says. -/
inductive Program (Op : Type) (Out : Op → Type) (α : Type) where
  | done (a : α)
  | call (op : Op) (next : Out op → Program Op Out α)

namespace Program

def perform (op : Op) : Program Op Out (Out op) := .call op .done

def bind : Program Op Out α → (α → Program Op Out β) → Program Op Out β
  | .done a, f => f a
  | .call op next, f => .call op fun o => (next o).bind f

instance : Monad (Program Op Out) where
  pure := .done
  bind := .bind

section Run

variable (exec : σ → (op : Op) → σ × Out op)

def run : Program Op Out α → σ → σ × α
  | .done a, s => (s, a)
  | .call op next, s => run (next (exec s op).2) (exec s op).1

def Allowed (allowed : σ → Op → Prop) : Program Op Out α → σ → Prop
  | .done _, _ => True
  | .call op next, s => allowed s op ∧ Allowed allowed (next (exec s op).2) (exec s op).1

variable {exec}

theorem run_invariant {Inv : σ → Prop} {allowed : σ → Op → Prop}
    (hcall : ∀ s op, Inv s → allowed s op → Inv (exec s op).1) (p : Program Op Out α) {s : σ}
    (hs : Inv s) (hp : p.Allowed exec allowed s) : Inv (p.run exec s).1 := by
  induction p generalizing s with
  | done a => exact hs
  | call op next ih => exact ih _ (hcall s op hs hp.1) hp.2

theorem run_bind (p : Program Op Out α) (f : α → Program Op Out β) (s : σ) :
    (p >>= f).run exec s = (f (p.run exec s).2).run exec (p.run exec s).1 := by
  induction p generalizing s with
  | done a => rfl
  | call op next ih => exact ih _ _

theorem allowed_bind {allowed : σ → Op → Prop} {p : Program Op Out α}
    {f : α → Program Op Out β} {s : σ} :
    (p >>= f).Allowed exec allowed s ↔
      p.Allowed exec allowed s ∧ (f (p.run exec s).2).Allowed exec allowed (p.run exec s).1 := by
  induction p generalizing s with
  | done a => exact ⟨fun h => ⟨trivial, h⟩, And.right⟩
  | call op next ih =>
    refine Iff.trans ?_ and_assoc.symm
    exact and_congr_right fun _ => ih _

instance instDecidableAllowed {allowed : σ → Op → Prop} [∀ s op, Decidable (allowed s op)] :
    ∀ (p : Program Op Out α) (s : σ), Decidable (p.Allowed exec allowed s)
  | .done _, _ => inferInstanceAs (Decidable True)
  | .call op next, s =>
    have : Decidable ((next (exec s op).2).Allowed exec allowed (exec s op).1) :=
      instDecidableAllowed _ _
    inferInstanceAs (Decidable (_ ∧ _))

end Run

section Ensures

variable (exec : σ → (op : Op) → σ × Out op) (allowed : σ → Op → Prop)

/-- Where `P` holds, the program ends with `Q` if its calls are allowed. -/
def Ensures (P : σ → Prop) (p : Program Op Out α) (Q : α → σ → Prop) : Prop :=
  ∀ s, P s → p.Allowed exec allowed s → Q (p.run exec s).2 (p.run exec s).1

variable {exec allowed} {P P' : σ → Prop} {p : Program Op Out α} {Q Q' : α → σ → Prop}

theorem ensures_ite {c : Prop} [Decidable c] {q : Program Op Out α}
    (hp : Ensures exec allowed P p Q) (hq : Ensures exec allowed P q Q) :
    Ensures exec allowed P (if c then p else q) Q := by
  by_cases hc : c
  · rwa [if_pos hc]
  · rwa [if_neg hc]

theorem ensures_perform {op : Op} {Q : Out op → σ → Prop}
    (h : ∀ s, P s → allowed s op → Q (exec s op).2 (exec s op).1) :
    Ensures exec allowed P (perform op) Q :=
  fun s hs hok => h s hs hok.1

theorem Ensures.bind {f : α → Program Op Out β} {R : β → σ → Prop}
    (hp : Ensures exec allowed P p Q) (hf : ∀ a, Ensures exec allowed (Q a) (f a) R) :
    Ensures exec allowed P (p >>= f) R := by
  intro s hs hok
  obtain ⟨hfst, hsnd⟩ := allowed_bind.mp hok
  rw [run_bind]
  exact hf _ _ (hp s hs hfst) hsnd

theorem Ensures.weaken (hp : Ensures exec allowed P p Q) (hP : ∀ s, P' s → P s)
    (hQ : ∀ a s, Q a s → Q' a s) : Ensures exec allowed P' p Q' :=
  fun s hs hok => hQ _ _ (hp s (hP s hs) hok)

end Ensures

end Program

end Support
