import Mathlib.Data.List.Basic
import Mathlib.Order.Lattice

/-!
# Calls inside calls

A computation on a state makes calls one after the other, each of which may make calls of its
own.  They form a tree; the heaviest path in it is what is active at one time.
-/

namespace Support

variable {ι σ ε α β : Type}

inductive CallTree (ι : Type) where
  | node (label : ι) (inside : List (CallTree ι))

namespace CallTree

section Height

variable (weight : ι → ℕ)

mutual

def height : CallTree ι → ℕ
  | .node label inside => weight label + heights inside

def heights : List (CallTree ι) → ℕ
  | [] => 0
  | t :: ts => max (height t) (heights ts)

end

variable {weight}

theorem heights_le_iff {ts : List (CallTree ι)} {bound : ℕ} :
    heights weight ts ≤ bound ↔ ∀ t ∈ ts, height weight t ≤ bound := by
  induction ts with
  | nil => simp [heights]
  | cons t ts ih => simp [heights, ih]

theorem height_le_heights {ts : List (CallTree ι)} {t : CallTree ι} (ht : t ∈ ts) :
    height weight t ≤ heights weight ts :=
  heights_le_iff.mp le_rfl t ht

end Height

section Mentions

variable (P : ι → Prop)

mutual

def Mentions : CallTree ι → Prop
  | .node label inside => P label ∨ AnyMentions inside

def AnyMentions : List (CallTree ι) → Prop
  | [] => False
  | t :: ts => Mentions t ∨ AnyMentions ts

end

variable {P}

theorem anyMentions_append {ts us : List (CallTree ι)} :
    AnyMentions P (ts ++ us) ↔ AnyMentions P ts ∨ AnyMentions P us := by
  induction ts with
  | nil => simp [AnyMentions]
  | cons t ts ih => simp [AnyMentions, ih, or_assoc]

end Mentions

end CallTree

structure Ended (ι σ ε α : Type) where
  result : Except ε α
  state : σ
  calls : List (CallTree ι)

def Caller (ι σ ε α : Type) : Type := σ → Ended ι σ ε α

namespace Caller

protected def pure (a : α) : Caller ι σ ε α := fun s => ⟨.ok a, s, []⟩

protected def bind (x : Caller ι σ ε α) (f : α → Caller ι σ ε β) : Caller ι σ ε β := fun s =>
  match (x s).result with
  | .error e => ⟨.error e, (x s).state, (x s).calls⟩
  | .ok a =>
    ⟨(f a (x s).state).result, (f a (x s).state).state, (x s).calls ++ (f a (x s).state).calls⟩

instance : Monad (Caller ι σ ε) where
  pure := Caller.pure
  bind := Caller.bind

def fail (e : ε) : Caller ι σ ε α := fun s => ⟨.error e, s, []⟩

def lift (r : Except ε α) : Caller ι σ ε α := fun s => ⟨r, s, []⟩

def effect (f : σ → Except ε α × σ) : Caller ι σ ε α := fun s => ⟨(f s).1, (f s).2, []⟩

def refuse (label : ι) (e : ε) : Caller ι σ ε α := fun s => ⟨.error e, s, [.node label []]⟩

def call (label : σ → ι) (x : Caller ι σ ε α) : Caller ι σ ε α := fun s =>
  ⟨(x s).result, (x s).state, [.node (label s) (x s).calls]⟩

theorem bind_ok {x : Caller ι σ ε α} {f : α → Caller ι σ ε β} {s : σ} {a : α}
    (h : (x s).result = .ok a) :
    (x >>= f) s = ⟨(f a (x s).state).result, (f a (x s).state).state,
      (x s).calls ++ (f a (x s).state).calls⟩ := by
  change Caller.bind x f s = _
  simp only [Caller.bind, h]

theorem bind_error {x : Caller ι σ ε α} {f : α → Caller ι σ ε β} {s : σ} {e : ε}
    (h : (x s).result = .error e) :
    (x >>= f) s = ⟨.error e, (x s).state, (x s).calls⟩ := by
  change Caller.bind x f s = _
  simp only [Caller.bind, h]

theorem mem_calls_bind {x : Caller ι σ ε α} {s : σ} {t : CallTree ι} (ht : t ∈ (x s).calls)
    (f : α → Caller ι σ ε β) : t ∈ ((x >>= f) s).calls := by
  cases h : (x s).result with
  | error e => rwa [bind_error h]
  | ok a =>
    rw [bind_ok h]
    exact List.mem_append_left _ ht

theorem lift_bind_congr {r : Except ε α} {f g : α → Caller ι σ ε β}
    (h : ∀ a, r = .ok a → f a = g a) : (lift r >>= f) = (lift r >>= g) := by
  cases r with
  | error e => rfl
  | ok a =>
    funext s
    rw [bind_ok rfl, bind_ok rfl, h a rfl]

/-- Steps without a call have the property, and sequences of computations that have it. -/
structure Composable (K : ∀ {α : Type}, Caller ι σ ε α → Prop) : Prop where
  lift : ∀ {α : Type} (r : Except ε α), K (Caller.lift r : Caller ι σ ε α)
  effect : ∀ {α : Type} (f : σ → Except ε α × σ), K (Caller.effect f : Caller ι σ ε α)
  bind : ∀ {α β : Type} {x : Caller ι σ ε α} {f : α → Caller ι σ ε β}, K x → (∀ a, K (f a)) →
    K (x >>= f)

namespace Composable

variable {K : ∀ {α : Type}, Caller ι σ ε α → Prop}

theorem pure (hK : Composable K) (a : α) : K (Pure.pure a : Caller ι σ ε α) := hK.lift (.ok a)

theorem fail (hK : Composable K) (e : ε) : K (Caller.fail e : Caller ι σ ε α) :=
  hK.lift (.error e)

theorem lift_bind (hK : Composable K) {r : Except ε α} {f : α → Caller ι σ ε β}
    (h : ∀ a, r = .ok a → K (f a)) : K (Caller.lift r >>= f) := by
  cases r with
  | error e => exact hK.fail e
  | ok a =>
    have heq : (Caller.lift (.ok a) >>= f) = f a := funext fun s => bind_ok rfl
    rw [heq]
    exact h a rfl

end Composable

def Every (P : CallTree ι → Prop) (x : Caller ι σ ε α) : Prop :=
  ∀ s, ∀ t ∈ (x s).calls, P t

theorem every_refuse {P : CallTree ι → Prop} {label : ι} (h : P (.node label [])) (e : ε) :
    Every P (refuse label e : Caller ι σ ε α) :=
  fun _ _ ht => List.mem_singleton.mp ht ▸ h

theorem every_call {P : CallTree ι → Prop} {label : σ → ι} {x : Caller ι σ ε α}
    (h : ∀ s, P (.node (label s) (x s).calls)) : Every P (call label x) :=
  fun s _ ht => List.mem_singleton.mp ht ▸ h s

theorem composable_every (P : CallTree ι → Prop) :
    Composable (Every P : ∀ {α : Type}, Caller ι σ ε α → Prop) where
  lift _ _ _ ht := absurd ht List.not_mem_nil
  effect _ _ _ ht := absurd ht List.not_mem_nil
  bind {α β x f} hx hf s t ht := by
    cases hresult : (x s).result with
    | error e =>
      rw [bind_error hresult] at ht
      exact hx s t ht
    | ok a =>
      rw [bind_ok hresult] at ht
      exact (List.mem_append.mp ht).elim (hx s t) (hf a _ t)

def Reports (P : ι → Prop) (x : Caller ι σ ε α) : Prop :=
  ∀ s a, (x s).result = .ok a → ¬CallTree.AnyMentions P (x s).calls

theorem reports_refuse (P : ι → Prop) (label : ι) (e : ε) :
    Reports P (refuse label e : Caller ι σ ε α) :=
  fun _ _ h => nomatch h

theorem reports_call {P : ι → Prop} {label : σ → ι} {x : Caller ι σ ε α}
    (hlabel : ∀ s, ¬P (label s)) (hx : Reports P x) : Reports P (call label x) := by
  rintro s a ha ((h | h) | h)
  · exact hlabel s h
  · exact hx s a ha h
  · exact h

theorem composable_reports (P : ι → Prop) :
    Composable (Reports P : ∀ {α : Type}, Caller ι σ ε α → Prop) where
  lift _ _ _ _ h := h
  effect _ _ _ _ h := h
  bind {α β x f} hx hf s b hb := by
    cases hresult : (x s).result with
    | error e =>
      rw [bind_error hresult] at hb
      cases hb
    | ok a =>
      rw [bind_ok hresult] at hb ⊢
      rw [CallTree.anyMentions_append, not_or]
      exact ⟨hx s a hresult, hf a _ b hb⟩

end Caller

end Support
