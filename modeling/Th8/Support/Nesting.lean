import Mathlib.Data.List.Basic

/-!
# Nested contexts

A text is read in a stack of contexts.  One symbol escapes the next, every context
has a symbol that closes it, and a symbol may open a context inside another.  The
grammar of these texts is recursive, while a scanner keeps the stack in its hand.
Both find the same places.
-/

namespace Support

open List

/-- A discipline of nested contexts `σ` over the symbols `α`. -/
structure Nesting (σ α : Type) where
  escape : α
  closer : σ → α
  opens : σ → α → Option σ
  closer_ne_escape : ∀ s, closer s ≠ escape
  opens_closer : ∀ s, opens s (closer s) = none
  opens_escape : ∀ s, opens s escape = none

namespace Nesting

variable {σ α : Type} (N : Nesting σ α)

inductive Body : σ → List α → Prop where
  | close (s : σ) : Body s [N.closer s]
  | escape {s : σ} (c : α) {rest : List α} : Body s rest → Body s (N.escape :: c :: rest)
  | plain {s : σ} {c : α} {rest : List α} (hescape : c ≠ N.escape)
      (hcloser : c ≠ N.closer s) (hopens : N.opens s c = none) : Body s rest → Body s (c :: rest)
  | nested {s t : σ} {c : α} {inner rest : List α} (hopens : N.opens s c = some t) :
      Body t inner → Body s rest → Body s (c :: (inner ++ rest))

variable {N}

theorem Body.ne_nil {s : σ} {b : List α} (h : N.Body s b) : b ≠ [] := by
  cases h <;> simp

theorem opens_ne_escape {s t : σ} {c : α} (h : N.opens s c = some t) : c ≠ N.escape := by
  rintro rfl
  simp [N.opens_escape] at h

theorem opens_ne_closer {s t : σ} {c : α} (h : N.opens s c = some t) : c ≠ N.closer s := by
  rintro rfl
  simp [N.opens_closer] at h

/-! ## Scanners -/

variable [DecidableEq α]

variable (N) in
/-- The stack after the symbol `c`, which is not the escape, has been read in the
context `s`. -/
def read (s : σ) (below : List σ) (c : α) : List σ :=
  if c = N.closer s then below
  else
    match N.opens s c with
    | some t => t :: s :: below
    | none => s :: below

theorem read_closer (s : σ) (below : List σ) : N.read s below (N.closer s) = below :=
  if_pos rfl

theorem read_plain {s : σ} {c : α} (hcloser : c ≠ N.closer s)
    (hopens : N.opens s c = none) (below : List σ) :
    N.read s below c = s :: below := by
  rw [read, if_neg hcloser, hopens]

theorem read_opens {s t : σ} {c : α} (h : N.opens s c = some t) (below : List σ) :
    N.read s below c = t :: s :: below := by
  rw [read, if_neg (opens_ne_closer h), h]

variable (N) in
/-- What a scanner does while a context is open.  Its result is the stack it stops with
and the number of symbols it has read; with the empty stack it may do anything. -/
structure Scans (scan : List σ → List α → List σ × ℕ) : Prop where
  nil : ∀ s below, scan (s :: below) [] = (s :: below, 0)
  lone : ∀ s below, scan (s :: below) [N.escape] = (s :: below, 1)
  escape : ∀ s below c rest, scan (s :: below) (N.escape :: c :: rest) =
    ((scan (s :: below) rest).1, (scan (s :: below) rest).2 + 2)
  symbol : ∀ s below c rest, c ≠ N.escape → scan (s :: below) (c :: rest) =
    ((scan (N.read s below c) rest).1, (scan (N.read s below c) rest).2 + 1)

namespace Scans

variable {scan : List σ → List α → List σ × ℕ} (hscan : N.Scans scan)
include hscan

theorem body {s : σ} {b : List α} (h : N.Body s b) (below : List σ) (z : List α) :
    scan (s :: below) (b ++ z) = ((scan below z).1, (scan below z).2 + b.length) := by
  induction h generalizing below z with
  | close s =>
    rw [singleton_append, hscan.symbol _ _ _ _ (N.closer_ne_escape s), read_closer]
    rfl
  | escape c _ ih =>
    rw [cons_append, cons_append, hscan.escape, ih]
    simp [Nat.add_assoc]
  | plain hescape hcloser hopens _ ih =>
    rw [cons_append, hscan.symbol _ _ _ _ hescape, read_plain hcloser hopens, ih]
    simp [Nat.add_assoc]
  | nested hopens _ _ ihInner ihRest =>
    rw [cons_append, hscan.symbol _ _ _ _ (opens_ne_escape hopens),
      read_opens hopens, append_assoc, ihInner, ihRest]
    simp only [length_cons, length_append, Prod.mk.injEq, true_and]
    omega

theorem exists_body {s : σ} {below : List σ} {z : List α}
    (h : (scan (s :: below) z).1 = []) : ∃ b rest, z = b ++ rest ∧ N.Body s b := by
  induction hn : z.length using Nat.strongRecOn generalizing s below z with
  | ind n ih =>
    subst hn
    match z with
    | [] =>
      rw [hscan.nil] at h
      cases h
    | c :: rest =>
      by_cases hescape : c = N.escape
      · subst hescape
        match rest with
        | [] =>
          rw [hscan.lone] at h
          cases h
        | d :: rest =>
          rw [hscan.escape] at h
          obtain ⟨b, tail, rfl, hb⟩ := ih rest.length (by simp only [length_cons]; omega) h rfl
          exact ⟨_, tail, rfl, hb.escape d⟩
      rw [hscan.symbol _ _ _ _ hescape] at h
      by_cases hcloser : c = N.closer s
      · subst hcloser
        exact ⟨_, rest, rfl, .close s⟩
      cases hopens : N.opens s c with
      | none =>
        rw [read_plain hcloser hopens] at h
        obtain ⟨b, tail, rfl, hb⟩ := ih rest.length (by simp) h rfl
        exact ⟨_, tail, rfl, .plain hescape hcloser hopens hb⟩
      | some t =>
        rw [read_opens hopens] at h
        obtain ⟨inner, after, rfl, hinner⟩ := ih rest.length (by simp) h rfl
        -- the scan of what follows the inner body starts in `s` again
        rw [hscan.body hinner] at h
        obtain ⟨b, tail, rfl, hb⟩ := ih after.length
          (by simp only [length_cons, length_append]; omega) h rfl
        exact ⟨_, tail, by simp, .nested hopens hinner hb⟩

end Scans

variable (N) in
def scan : List σ → List α → List σ × ℕ
  | [], _ => ([], 0)
  | s :: below, [] => (s :: below, 0)
  | s :: below, c :: rest =>
    if c = N.escape then
      match rest with
      | [] => (s :: below, 1)
      | _ :: rest' => ((scan (s :: below) rest').1, (scan (s :: below) rest').2 + 2)
    else ((scan (N.read s below c) rest).1, (scan (N.read s below c) rest).2 + 1)

theorem scan_empty (z : List α) : N.scan [] z = ([], 0) := by
  rw [scan]

variable (N) in
theorem scans_scan : N.Scans N.scan where
  nil s below := by rw [scan]
  lone s below := by rw [scan.eq_def]; simp
  escape s below c rest := by rw [scan.eq_def]; simp
  symbol s below c rest h := by rw [scan.eq_def]; simp [h]

theorem scan_body {s : σ} {b : List α} (h : N.Body s b) (z : List α) :
    N.scan [s] (b ++ z) = ([], b.length) := by
  rw [(scans_scan N).body h, scan_empty, Nat.zero_add]

theorem Body.unique {s : σ} {b b' r r' : List α} (h : N.Body s b) (h' : N.Body s b')
    (heq : b ++ r = b' ++ r') : b = b' ∧ r = r' := by
  apply append_inj heq
  have hlen := scan_body h r
  rw [heq, scan_body h' r'] at hlen
  exact (congrArg Prod.snd hlen).symm

end Nesting

end Support
