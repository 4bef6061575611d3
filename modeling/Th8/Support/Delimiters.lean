import Mathlib.Data.Int.Notation
import Mathlib.Data.List.Basic
import Mathlib.Data.List.Count
import Mathlib.Data.List.Infix

/-!
# Brackets, separators and counters
-/

namespace Support

open List Option

/-!
## Brackets and separators

A scanner counts brackets in its hand: it looks for the close bracket that nothing before
it opens, or for the first separator outside all brackets.  What it finds is told by the
level of brackets that a text ends at.
-/

structure Delimiters (α : Type) where
  opener : α
  closer : α
  separator : α
  closer_ne_opener : closer ≠ opener
  separator_ne_opener : separator ≠ opener
  separator_ne_closer : separator ≠ closer

namespace Delimiters

variable {α : Type} [DecidableEq α] (D : Delimiters α)

def step (n : ℕ) (a : α) : Option ℕ :=
  if a = D.opener then some (n + 1)
  else if a = D.closer then
    match n with
    | 0 => none
    | n + 1 => some n
  else some n

def level : ℕ → List α → Option ℕ
  | n, [] => some n
  | n, a :: z => (D.step n a).bind fun m => level m z

def Balanced (z : List α) : Prop := D.level 0 z = some 0

/-- No separator stands outside the brackets, of which `n` are open before the text. -/
def Unsplit (n : ℕ) (z : List α) : Prop :=
  ∀ x y, z = x ++ D.separator :: y → D.level n x ≠ some 0

variable {D}

theorem step_opener (n : ℕ) : D.step n D.opener = some (n + 1) := if_pos rfl

theorem step_closer_zero : D.step 0 D.closer = none := by
  rw [step, if_neg D.closer_ne_opener, if_pos rfl]

theorem step_closer_succ (n : ℕ) : D.step (n + 1) D.closer = some n := by
  rw [step, if_neg D.closer_ne_opener, if_pos rfl]

theorem step_plain {a : α} (hopener : a ≠ D.opener) (hcloser : a ≠ D.closer) (n : ℕ) :
    D.step n a = some n := by
  simp only [step, if_neg hopener, if_neg hcloser]

theorem step_separator (n : ℕ) : D.step n D.separator = some n :=
  step_plain D.separator_ne_opener D.separator_ne_closer n

theorem level_cons {n m : ℕ} {a : α} (h : D.step n a = some m) (z : List α) :
    D.level n (a :: z) = D.level m z := by
  rw [level, h]
  rfl

theorem level_cons_none {n : ℕ} {a : α} (h : D.step n a = none) (z : List α) :
    D.level n (a :: z) = none := by
  rw [level, h]
  rfl

theorem level_append (n : ℕ) (x y : List α) :
    D.level n (x ++ y) = (D.level n x).bind fun m => D.level m y := by
  induction x generalizing n with
  | nil => rfl
  | cons a x ih =>
    rw [cons_append]
    cases h : D.step n a with
    | none =>
      rw [level_cons_none h, level_cons_none h]
      rfl
    | some m => rw [level_cons h, level_cons h, ih]

theorem balanced_nil : D.Balanced [] := rfl

theorem Balanced.level {z : List α} (h : D.Balanced z) : D.level 0 z = some 0 := h

theorem balanced_join_iff {x y : List α} (h : D.level 0 x = some 0) :
    D.Balanced (x ++ D.separator :: y) ↔ D.Balanced y := by
  rw [Balanced, level_append, h, bind_some, level_cons (step_separator 0), Balanced]

theorem unsplit_nil (n : ℕ) : D.Unsplit n [] := by
  intro x y h
  exact absurd h (by simp)

theorem unsplit_cons {n m : ℕ} {a : α} {z : List α} (h : D.step n a = some m) :
    D.Unsplit n (a :: z) ↔ (a = D.separator → n ≠ 0) ∧ D.Unsplit m z := by
  constructor
  · intro hsplit
    refine ⟨?_, ?_⟩
    · rintro rfl rfl
      exact hsplit [] z rfl rfl
    · rintro x y rfl
      have hx := hsplit (a :: x) y rfl
      rwa [level_cons h] at hx
  · rintro ⟨hhead, hsplit⟩ x y heq
    cases x with
    | nil =>
      obtain ⟨hsep, -⟩ := List.cons.inj heq
      intro hn
      exact hhead hsep (some.inj hn)
    | cons b x =>
      obtain ⟨rfl, hz⟩ := List.cons.inj heq
      rw [level_cons h]
      exact hsplit x y hz

variable (D) in
/-- The text up to the bracket that closes one more than is open in it, where `n` are
open before, and the text behind that bracket. -/
def splitClose : ℕ → List α → Option (List α × List α)
  | _, [] => none
  | n, a :: z =>
    match D.step n a with
    | none => some ([], z)
    | some m => (splitClose m z).map fun r => (a :: r.1, r.2)

theorem step_eq_none_iff {n : ℕ} {a : α} : D.step n a = none ↔ n = 0 ∧ a = D.closer := by
  by_cases hopener : a = D.opener
  · subst hopener
    simp [step_opener, D.closer_ne_opener.symm]
  by_cases hcloser : a = D.closer
  · subst hcloser
    cases n with
    | zero => simp [step_closer_zero]
    | succ n => simp [step_closer_succ]
  · simp [step_plain hopener hcloser, hcloser]

theorem splitClose_eq_some_iff {n : ℕ} {z b rest : List α} :
    D.splitClose n z = some (b, rest) ↔ z = b ++ D.closer :: rest ∧ D.level n b = some 0 := by
  induction z generalizing n b with
  | nil => simp [splitClose]
  | cons a z ih =>
    rw [splitClose]
    cases hstep : D.step n a with
    | none =>
      obtain ⟨rfl, rfl⟩ := step_eq_none_iff.mp hstep
      constructor
      · rintro h
        cases h
        exact ⟨rfl, rfl⟩
      · rintro ⟨heq, hlevel⟩
        cases b with
        | nil =>
          cases heq
          rfl
        | cons c b =>
          obtain ⟨rfl, -⟩ := List.cons.inj heq
          rw [level_cons_none step_closer_zero] at hlevel
          cases hlevel
    | some m =>
      constructor
      · intro h
        obtain ⟨⟨b', rest'⟩, hrest, hr⟩ := map_eq_some_iff.mp h
        cases hr
        obtain ⟨rfl, hlevel⟩ := ih.mp hrest
        exact ⟨rfl, by rw [level_cons hstep, hlevel]⟩
      · rintro ⟨heq, hlevel⟩
        cases b with
        | nil =>
          -- the bracket would close what is not open
          cases heq
          cases hlevel
          rw [step_closer_zero] at hstep
          cases hstep
        | cons c b =>
          cases heq
          rw [level_cons hstep] at hlevel
          exact map_eq_some_iff.mpr ⟨(b, rest), ih.mpr ⟨rfl, hlevel⟩, rfl⟩

theorem splitClose_eq_none_iff {n : ℕ} {z : List α} :
    D.splitClose n z = none ↔ D.level n z ≠ none := by
  induction z generalizing n with
  | nil => simp [splitClose, level]
  | cons a z ih =>
    rw [splitClose]
    cases hstep : D.step n a with
    | none => simp [level_cons_none hstep]
    | some m =>
      rw [level_cons hstep, ← ih]
      exact map_eq_none_iff

/-! ### The scanner for the separator -/

variable (D) in
def splitSeparator : ℤ → List α → Option (List α × List α)
  | _, [] => none
  | depth, a :: z =>
    if a = D.opener then (splitSeparator (depth + 1) z).map fun r => (a :: r.1, r.2)
    else if a = D.closer then (splitSeparator (depth - 1) z).map fun r => (a :: r.1, r.2)
    else if a = D.separator ∧ depth = 0 then some ([], z)
    else (splitSeparator depth z).map fun r => (a :: r.1, r.2)

theorem splitSeparator_text {depth : ℤ} {z x y : List α}
    (h : D.splitSeparator depth z = some (x, y)) : z = x ++ D.separator :: y := by
  induction z generalizing depth x with
  | nil => cases h
  | cons a z ih =>
    have hcons : ∀ {depth}, (D.splitSeparator depth z).map (fun r => (a :: r.1, r.2)) =
        some (x, y) → a :: z = x ++ D.separator :: y := by
      intro depth h
      obtain ⟨r, hr, heq⟩ := map_eq_some_iff.mp h
      cases heq
      rw [ih hr]
      rfl
    rw [splitSeparator] at h
    split_ifs at h with hopener hcloser hseparator
    · exact hcons h
    · exact hcons h
    · cases h
      rw [hseparator.1]
      rfl
    · exact hcons h

theorem splitSeparator_cons {n m : ℕ} {a : α} (h : D.step n a = some m)
    (hsep : a = D.separator → n ≠ 0) (z : List α) :
    D.splitSeparator n (a :: z) = (D.splitSeparator m z).map fun r => (a :: r.1, r.2) := by
  rw [splitSeparator]
  by_cases hopener : a = D.opener
  · subst hopener
    rw [step_opener] at h
    cases h
    rw [if_pos rfl]
    rfl
  by_cases hcloser : a = D.closer
  · subst hcloser
    cases n with
    | zero =>
      rw [step_closer_zero] at h
      cases h
    | succ n =>
      rw [step_closer_succ] at h
      cases h
      rw [if_neg hopener, if_pos rfl, Int.natCast_succ, Int.add_sub_cancel]
  · rw [step_plain hopener hcloser] at h
    cases h
    rw [if_neg hopener, if_neg hcloser, if_neg]
    rintro ⟨rfl, hn⟩
    exact hsep rfl (Int.ofNat_eq_zero.mp hn)

theorem splitSeparator_separator (z : List α) :
    D.splitSeparator 0 (D.separator :: z) = some ([], z) := by
  rw [splitSeparator, if_neg D.separator_ne_opener, if_neg D.separator_ne_closer, if_pos ⟨rfl, rfl⟩]

theorem splitSeparator_eq_some_iff {n : ℕ} {z x y : List α} (hz : D.level n z ≠ none) :
    D.splitSeparator n z = some (x, y) ↔
      z = x ++ D.separator :: y ∧ D.level n x = some 0 ∧ D.Unsplit n x := by
  induction z generalizing n x with
  | nil => simp [splitSeparator]
  | cons a z ih =>
    cases hstep : D.step n a with
    | none => exact absurd (level_cons_none hstep z) hz
    | some m =>
      rw [level_cons hstep] at hz
      by_cases hsep : a = D.separator ∧ n = 0
      · obtain ⟨rfl, rfl⟩ := hsep
        rw [Int.ofNat_zero, splitSeparator_separator]
        constructor
        · intro h
          cases h
          exact ⟨rfl, rfl, unsplit_nil 0⟩
        · rintro ⟨heq, -, hsplit⟩
          cases x with
          | nil =>
            cases heq
            rfl
          | cons b x =>
            obtain ⟨rfl, -⟩ := List.cons.inj heq
            exact absurd rfl (((unsplit_cons (step_separator 0)).mp hsplit).1 rfl)
      · have hne : a = D.separator → n ≠ 0 := fun h hn => hsep ⟨h, hn⟩
        rw [splitSeparator_cons hstep hne]
        constructor
        · intro h
          obtain ⟨⟨x', y'⟩, hrest, hr⟩ := map_eq_some_iff.mp h
          cases hr
          obtain ⟨rfl, hlevel, hsplit⟩ := (ih hz).mp hrest
          exact ⟨rfl, by rw [level_cons hstep, hlevel], (unsplit_cons hstep).mpr ⟨hne, hsplit⟩⟩
        · rintro ⟨heq, hlevel, hsplit⟩
          cases x with
          | nil =>
            obtain ⟨rfl, -⟩ := List.cons.inj heq
            exact absurd (some.inj hlevel) (hne rfl)
          | cons b x =>
            cases heq
            rw [level_cons hstep] at hlevel
            rw [(ih hz).mpr ⟨rfl, hlevel, ((unsplit_cons hstep).mp hsplit).2⟩]
            rfl

theorem splitSeparator_eq_none_iff {n : ℕ} {z : List α} (hz : D.level n z ≠ none) :
    D.splitSeparator n z = none ↔ D.Unsplit n z := by
  induction z generalizing n with
  | nil => exact iff_of_true rfl (unsplit_nil n)
  | cons a z ih =>
    cases hstep : D.step n a with
    | none => exact absurd (level_cons_none hstep z) hz
    | some m =>
      rw [level_cons hstep] at hz
      rw [unsplit_cons hstep, ← ih hz]
      by_cases hsep : a = D.separator ∧ n = 0
      · obtain ⟨rfl, rfl⟩ := hsep
        rw [Int.ofNat_zero, splitSeparator_separator]
        simp
      · have hne : a = D.separator → n ≠ 0 := fun h hn => hsep ⟨h, hn⟩
        rw [splitSeparator_cons hstep hne, map_eq_none_iff]
        exact ⟨fun h => ⟨hne, h⟩, And.right⟩

end Delimiters

/-!
## Counters that stop at zero

A counter goes up at one symbol and down at another, but never below zero.  It ends at
zero exactly when no suffix has more of the first symbol than of the second.
-/

section FlooredCount

variable {α : Type} [DecidableEq α] (up down : α)

def flooredStep (n : ℕ) (a : α) : ℕ :=
  if a = up then n + 1 else if a = down then n - 1 else n

/-- The counter after the symbols `z`. -/
def flooredCount (n : ℕ) (z : List α) : ℕ := z.foldl (flooredStep up down) n

def Settles (z : List α) : Prop := ∀ t, t <:+ z → t.count up ≤ t.count down

variable {up down}

theorem settles_nil : Settles up down [] := by
  intro t ht
  rw [suffix_nil.mp ht]
  exact Nat.le_refl _

theorem settles_cons {a : α} {z : List α} :
    Settles up down (a :: z) ↔ (a :: z).count up ≤ (a :: z).count down ∧ Settles up down z := by
  constructor
  · intro h
    exact ⟨h _ (suffix_refl _), fun t ht => h t (ht.trans (suffix_cons a z))⟩
  · rintro ⟨hwhole, h⟩ t ht
    rcases suffix_cons_iff.mp ht with rfl | ht
    · exact hwhole
    · exact h t ht

theorem flooredCount_eq_zero_iff (hne : up ≠ down) {n : ℕ} {z : List α} :
    flooredCount up down n z = 0 ↔ n + z.count up ≤ z.count down ∧ Settles up down z := by
  induction z generalizing n with
  | nil =>
    simp only [flooredCount, foldl_nil, count_nil]
    constructor
    · rintro rfl
      exact ⟨Nat.le_refl _, settles_nil⟩
    · rintro ⟨h, -⟩
      omega
  | cons a z ih =>
    change flooredCount up down (flooredStep up down n a) z = 0 ↔ _
    rw [ih, settles_cons]
    by_cases hup : a = up
    · subst hup
      have hdown : (a :: z).count down = z.count down := count_cons_of_ne hne
      rw [flooredStep, if_pos rfl, hdown, count_cons_self]
      constructor
      · rintro ⟨h, hz⟩
        exact ⟨by omega, by omega, hz⟩
      · rintro ⟨h, -, hz⟩
        exact ⟨by omega, hz⟩
    by_cases hdown : a = down
    · subst hdown
      have hcount : (a :: z).count up = z.count up := count_cons_of_ne (Ne.symm hne)
      rw [flooredStep, if_neg hup, if_pos rfl, hcount, count_cons_self]
      constructor
      · rintro ⟨h, hz⟩
        have hwhole := hz z (suffix_refl z)
        exact ⟨by omega, by omega, hz⟩
      · rintro ⟨h, -, hz⟩
        have hwhole := hz z (suffix_refl z)
        exact ⟨by omega, hz⟩
    · have hcountUp : (a :: z).count up = z.count up := count_cons_of_ne hup
      have hcountDown : (a :: z).count down = z.count down := count_cons_of_ne hdown
      rw [flooredStep, if_neg hup, if_neg hdown, hcountUp, hcountDown]
      constructor
      · rintro ⟨h, hz⟩
        exact ⟨h, hz z (suffix_refl z), hz⟩
      · rintro ⟨h, -, hz⟩
        exact ⟨h, hz⟩

end FlooredCount

end Support
