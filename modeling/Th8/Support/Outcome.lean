import Mathlib.Data.List.Basic

/-!
# Fallible computations

Rewriting and inversion rules for computations in `Except`, and a comparison of
two such computations that ignores why they fail.
-/

namespace Support

section Except

variable {ε α β : Type}

@[simp] theorem ok_bind (a : α) (f : α → Except ε β) :
    (Except.ok a >>= f) = f a := rfl

@[simp] theorem error_bind (e : ε) (f : α → Except ε β) :
    (Except.error e >>= f) = Except.error e := rfl

@[simp] theorem pure_eq_ok (a : α) : (pure a : Except ε α) = Except.ok a := rfl

@[simp] theorem map_ok (a : α) (f : α → β) :
    (Except.ok a : Except ε α).map f = Except.ok (f a) := rfl

@[simp] theorem map_error (e : ε) (f : α → β) :
    (Except.error e : Except ε α).map f = Except.error e := rfl

variable {b : β}

theorem bind_eq_ok {x : Except ε α} {f : α → Except ε β} :
    (x >>= f) = .ok b ↔ ∃ a, x = .ok a ∧ f a = .ok b := by
  cases x with
  | error e => simp
  | ok a => simp

theorem map_eq_ok {x : Except ε α} {f : α → β} : x.map f = .ok b ↔ ∃ a, x = .ok a ∧ f a = b := by
  cases x with
  | error e => simp
  | ok a => simp

theorem exists_ok_of_foldlM {f : β → α → Except ε β} {l : List α} {b' : β}
    (h : l.foldlM f b = .ok b') : ∀ a ∈ l, ∃ c c', f c a = .ok c' := by
  induction l generalizing b with
  | nil => exact fun a ha => absurd ha List.not_mem_nil
  | cons x l ih =>
    rw [List.foldlM_cons] at h
    obtain ⟨c, hc, hrest⟩ := bind_eq_ok.mp h
    intro a ha
    rcases List.mem_cons.mp ha with rfl | ha
    · exact ⟨b, c, hc⟩
    · exact ih hrest a ha

theorem exists_error_of_foldlM {f : β → α → Except ε β} {l : List α} {e : ε}
    (h : l.foldlM f b = .error e) : ∃ a ∈ l, ∃ c, f c a = .error e := by
  induction l generalizing b with
  | nil => cases h
  | cons x l ih =>
    rw [List.foldlM_cons] at h
    rcases hx : f b x with e' | c
    · rw [hx, error_bind, Except.error.injEq] at h
      exact ⟨x, List.mem_cons_self, b, h ▸ hx⟩
    · rw [hx, ok_bind] at h
      obtain ⟨a, ha, hfail⟩ := ih h
      exact ⟨a, List.mem_cons_of_mem x ha, hfail⟩

end Except

def Agree {ε α : Type} : Except ε α → Except ε α → Prop
  | .ok a, .ok b => a = b
  | .error _, .error _ => True
  | _, _ => False

section Agree

variable {ε α : Type}

instance [DecidableEq α] (x y : Except ε α) : Decidable (Agree x y) :=
  match x, y with
  | .ok a, .ok b => inferInstanceAs (Decidable (a = b))
  | .error _, .error _ => inferInstanceAs (Decidable True)
  | .ok _, .error _ => inferInstanceAs (Decidable False)
  | .error _, .ok _ => inferInstanceAs (Decidable False)

@[simp] theorem agree_ok_ok (a b : α) :
    Agree (.ok a : Except ε α) (.ok b) ↔ a = b := Iff.rfl

@[simp] theorem agree_error_error (d e : ε) :
    Agree (.error d : Except ε α) (.error e) := trivial

end Agree

/-!
## Computations that always return the same

A computation with a state may change the state, and what it returns need not depend on it.
-/

section Steady

variable {σ ε α β : Type}

/-- The computation returns `a`, whatever state it starts in. -/
def Yields (x : StateT σ (Except ε) α) (a : α) : Prop := ∀ s, ∃ s', x.run s = .ok (a, s')

namespace Yields

theorem pure (a : α) : Yields (Pure.pure a : StateT σ (Except ε) α) a := fun s => ⟨s, rfl⟩

theorem bind {x : StateT σ (Except ε) α} {f : α → StateT σ (Except ε) β} {a : α} {b : β}
    (hx : Yields x a) (hf : Yields (f a) b) : Yields (x >>= f) b := by
  intro s
  obtain ⟨s', hs'⟩ := hx s
  obtain ⟨s'', hs''⟩ := hf s'
  refine ⟨s'', ?_⟩
  rw [StateT.run_bind, hs']
  exact hs''

theorem run_eq {x : StateT σ (Except ε) α} {a b : α} (h : Yields x a) {s s' : σ}
    (hrun : x.run s = .ok (b, s')) : b = a := by
  obtain ⟨s'', hs''⟩ := h s
  rw [hrun] at hs''
  exact congrArg Prod.fst (Except.ok.inj hs'')

end Yields

end Steady

/-!
## Computations that make requests

A computation asks its surroundings for things on the way to its result, and is over as soon
as one of them is refused.  What it asks for and what it returns do not depend on the
surroundings, so they are looked at here without them.
-/

section Traced

variable {Op ε α β σ : Type}

/-- The requests of a computation in their order, and its result when all are granted. -/
structure Traced (Op ε α : Type) where
  ops : List Op
  result : Except ε α

namespace Traced

def bind (x : Traced Op ε α) (f : α → Traced Op ε β) : Traced Op ε β :=
  match x.result with
  | .error e => ⟨x.ops, .error e⟩
  | .ok a => ⟨x.ops ++ (f a).ops, (f a).result⟩

instance : Monad (Traced Op ε) where
  pure a := ⟨[], .ok a⟩
  bind := bind

def request (op : Op) : Traced Op ε Unit := ⟨[op], .ok ()⟩

def requests (n : ℕ) (op : Op) : Traced Op ε Unit := ⟨List.replicate n op, .ok ()⟩

def lift (r : Except ε α) : Traced Op ε α := ⟨[], r⟩

def fail (e : ε) : Traced Op ε α := ⟨[], .error e⟩

@[simp] theorem pure_ops (a : α) : (pure a : Traced Op ε α).ops = [] := rfl

@[simp] theorem pure_result (a : α) : (pure a : Traced Op ε α).result = .ok a := rfl

@[simp] theorem request_ops (op : Op) : (request op : Traced Op ε Unit).ops = [op] := rfl

@[simp] theorem request_result (op : Op) :
    (request op : Traced Op ε Unit).result = .ok () := rfl

@[simp] theorem requests_ops (n : ℕ) (op : Op) :
    (requests n op : Traced Op ε Unit).ops = List.replicate n op := rfl

@[simp] theorem requests_result (n : ℕ) (op : Op) :
    (requests n op : Traced Op ε Unit).result = .ok () := rfl

@[simp] theorem lift_ops (r : Except ε α) : (lift r : Traced Op ε α).ops = [] := rfl

@[simp] theorem lift_result (r : Except ε α) : (lift r : Traced Op ε α).result = r := rfl

@[simp] theorem fail_result (e : ε) : (fail e : Traced Op ε α).result = .error e := rfl

theorem bind_def (x : Traced Op ε α) (f : α → Traced Op ε β) : x >>= f = x.bind f := rfl

@[simp] theorem pure_bind (a : α) (f : α → Traced Op ε β) : pure a >>= f = f a := rfl

variable {x : Traced Op ε α}

theorem eq_pure {a : α} (hops : x.ops = []) (ha : x.result = .ok a) : x = pure a := by
  rcases x with ⟨ops, result⟩
  obtain rfl : ops = [] := hops
  obtain rfl : result = .ok a := ha
  rfl

theorem bind_of_ok {a : α} (h : x.result = .ok a) (f : α → Traced Op ε β) :
    x >>= f = ⟨x.ops ++ (f a).ops, (f a).result⟩ := by
  rw [bind_def, bind, h]

theorem bind_of_error {e : ε} (h : x.result = .error e) (f : α → Traced Op ε β) :
    x >>= f = ⟨x.ops, .error e⟩ := by
  rw [bind_def, bind, h]

@[simp] theorem bind_result (x : Traced Op ε α) (f : α → Traced Op ε β) :
    (x >>= f).result = x.result >>= fun a => (f a).result := by
  rcases h : x.result with e | a
  · rw [bind_of_error h]
    rfl
  · rw [bind_of_ok h]
    rfl

variable {f : α → Traced Op ε β}

theorem bind_eq_ok {b : β} :
    (x >>= f).result = .ok b ↔ ∃ a, x.result = .ok a ∧ (f a).result = .ok b := by
  rw [bind_result, Support.bind_eq_ok]

theorem bind_eq_error {e : ε} :
    (x >>= f).result = .error e ↔
      x.result = .error e ∨ ∃ a, x.result = .ok a ∧ (f a).result = .error e := by
  rcases h : x.result with e' | a
  · simp [h]
  · simp [h]

theorem errors_bind {P : ε → Prop} (hx : ∀ e, x.result = .error e → P e)
    (hf : ∀ a, x.result = .ok a → ∀ e, (f a).result = .error e → P e) :
    ∀ e, (x >>= f).result = .error e → P e := by
  intro e he
  rcases bind_eq_error.mp he with he | ⟨a, ha, he⟩
  · exact hx e he
  · exact hf a ha e he

theorem mem_bind_ops {op : Op} :
    op ∈ (x >>= f).ops ↔ op ∈ x.ops ∨ ∃ a, x.result = .ok a ∧ op ∈ (f a).ops := by
  rcases h : x.result with e | a
  · simp [bind_of_error h]
  · simp [bind_of_ok h]

section Exec

variable (grant : σ → Op → Except ε σ)

def exec (x : Traced Op ε α) (s : σ) : Except ε (α × σ) :=
  x.ops.foldlM grant s >>= fun s' => x.result.map (·, s')

@[simp] theorem exec_pure (a : α) (s : σ) :
    (pure a : Traced Op ε α).exec grant s = .ok (a, s) := rfl

theorem exec_of_granted {x : Traced Op ε α} {s s' : σ} (h : x.ops.foldlM grant s = .ok s') :
    x.exec grant s = x.result.map (·, s') := by
  rw [exec, h]
  rfl

end Exec

end Traced

end Traced

end Support
