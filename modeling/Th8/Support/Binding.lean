import Mathlib.Data.List.ReduceOption

/-!
# Operators that take their neighbours

A scan over a list in which an operator takes the element before it and the one after it
as operands, and the same scan over an array whose taken slots are left empty.  What
becomes of the list is described by cutting it into pieces, one for each element left.
-/

namespace Support

open List

/-! ## Pieces of a list -/

section Pieces

variable {κ ν : Type}

inductive Pieces (Y : List κ → ν → Prop) : List κ → List ν → Prop
  | nil : Pieces Y [] []
  | cons {xs : List κ} {n : ν} {L : List κ} {M : List ν} :
      Y xs n → Pieces Y L M → Pieces Y (xs ++ L) (n :: M)

variable {Y Y' : List κ → ν → Prop} {L L' : List κ} {M M' : List ν}

variable {n : ν}

theorem Pieces.single {xs : List κ} (h : Y xs n) : Pieces Y xs [n] := by
  simpa using Pieces.cons h Pieces.nil

theorem Pieces.append (h : Pieces Y L M) (h' : Pieces Y L' M') : Pieces Y (L ++ L') (M ++ M') := by
  induction h with
  | nil => exact h'
  | cons hY _ ih =>
    rw [append_assoc]
    exact Pieces.cons hY ih

theorem Pieces.mono (h : Pieces Y L M) (hYY : ∀ xs, ∀ n ∈ M, Y xs n → Y' xs n) : Pieces Y' L M := by
  induction h with
  | nil => exact Pieces.nil
  | cons hY _ ih =>
    exact Pieces.cons (hYY _ _ mem_cons_self hY) (ih fun xs n hn => hYY xs n (mem_cons_of_mem _ hn))

theorem pieces_nil_right : Pieces Y L [] ↔ L = [] := by
  constructor
  · rintro ⟨⟩
    rfl
  · rintro rfl
    exact Pieces.nil

theorem pieces_cons_right :
    Pieces Y L (n :: M) ↔ ∃ xs L', L = xs ++ L' ∧ Y xs n ∧ Pieces Y L' M := by
  constructor
  · rintro (_ | ⟨hY, h⟩)
    exact ⟨_, _, rfl, hY, h⟩
  · rintro ⟨xs, L', rfl, hY, h⟩
    exact Pieces.cons hY h

theorem pieces_single : Pieces Y L [n] ↔ Y L n := by
  simp [pieces_cons_right, pieces_nil_right]

theorem pieces_append_right :
    Pieces Y L (M ++ M') ↔ ∃ L₁ L₂, L = L₁ ++ L₂ ∧ Pieces Y L₁ M ∧ Pieces Y L₂ M' := by
  constructor
  · intro h
    induction M generalizing L with
    | nil => exact ⟨[], L, rfl, Pieces.nil, h⟩
    | cons n M ih =>
      obtain ⟨xs, L', rfl, hY, h'⟩ := pieces_cons_right.mp h
      obtain ⟨L₁, L₂, rfl, h₁, h₂⟩ := ih h'
      exact ⟨xs ++ L₁, L₂, (append_assoc _ _ _).symm, Pieces.cons hY h₁, h₂⟩
  · rintro ⟨L₁, L₂, rfl, h₁, h₂⟩
    exact h₁.append h₂

theorem Pieces.reverse (h : Pieces Y L M) :
    Pieces (fun xs n => Y xs.reverse n) L.reverse M.reverse := by
  induction h with
  | nil => exact Pieces.nil
  | cons hY _ ih =>
    rw [reverse_append, reverse_cons]
    exact ih.append (Pieces.single (by simpa using hY))

theorem Pieces.refl {Y : List ν → ν → Prop} (h : ∀ n ∈ M, Y [n] n) : Pieces Y M M := by
  induction M with
  | nil => exact Pieces.nil
  | cons n M ih =>
    exact Pieces.cons (h n mem_cons_self) (ih fun m hm => h m (mem_cons_of_mem n hm))

end Pieces

section Scan

variable {κ ν : Type} (isTerm : ν → Bool) (fire : ν → Option (ν → ν → ν))

/-- Go through the elements ahead; one that fires takes the nearest element behind and
the next one ahead, which have to be terms.  The elements behind are in reverse order. -/
def bindScan : List ν → List ν → Option (List ν)
  | behind, [] => some behind
  | behind, x :: ahead =>
    match fire x with
    | none => bindScan (x :: behind) ahead
    | some mk =>
      match behind, ahead with
      | b :: behind, a :: ahead =>
        if isTerm b && isTerm a then bindScan (mk b a :: behind) ahead else none
      | _, _ => none

def takeFirst : List (Option ν) → Option (ν × List (Option ν))
  | [] => none
  | some x :: slots => some (x, none :: slots)
  | none :: slots => (takeFirst slots).map fun p => (p.1, none :: p.2)

/-- The scan over an array of `n` slots ahead.  Operands leave their slots empty, and
empty slots are skipped. -/
def bindSlots : ℕ → List (Option ν) → List (Option ν) → Option (List (Option ν))
  | 0, behind, ahead => some (ahead.reverse ++ behind)
  | _ + 1, behind, [] => some behind
  | n + 1, behind, none :: ahead => bindSlots n (none :: behind) ahead
  | n + 1, behind, some x :: ahead =>
    match fire x with
    | none => bindSlots n (some x :: behind) ahead
    | some mk =>
      match takeFirst behind, takeFirst ahead with
      | some (b, behind), some (a, ahead) =>
        if isTerm b && isTerm a then bindSlots n (some (mk b a) :: behind) ahead else none
      | _, _ => none

variable {isTerm fire}

theorem takeFirst_spec (slots : List (Option ν)) :
    (takeFirst slots = none ∧ slots.reduceOption = []) ∨
      ∃ x slots', takeFirst slots = some (x, slots') ∧ slots'.length = slots.length ∧
        slots.reduceOption = x :: slots'.reduceOption := by
  induction slots with
  | nil => exact .inl ⟨rfl, rfl⟩
  | cons s slots ih =>
    cases s with
    | some x => exact .inr ⟨x, none :: slots, rfl, rfl, rfl⟩
    | none =>
      rcases ih with ⟨h, hnil⟩ | ⟨x, slots', h, hlen, hcons⟩
      · exact .inl ⟨by rw [takeFirst, h]; rfl, hnil⟩
      · exact .inr ⟨x, none :: slots', by rw [takeFirst, h]; rfl, by simp [hlen], hcons⟩

theorem bindSlots_reduceOption {n : ℕ} {behind ahead : List (Option ν)} (hn : ahead.length ≤ n) :
    (bindSlots isTerm fire n behind ahead).map List.reduceOption =
      bindScan isTerm fire behind.reduceOption ahead.reduceOption := by
  induction n generalizing behind ahead with
  | zero =>
    rw [length_eq_zero_iff.mp (Nat.le_zero.mp hn)]
    rfl
  | succ n ih =>
    rcases ahead with _ | ⟨_ | x, ahead⟩
    · rfl
    · exact ih (Nat.le_of_succ_le_succ hn)
    · have hlen : ahead.length ≤ n := Nat.le_of_succ_le_succ hn
      rw [bindSlots, reduceOption_cons_of_some, bindScan]
      cases fire x with
      | none => exact ih hlen
      | some mk =>
        rcases takeFirst_spec behind with ⟨hb, hbnil⟩ | ⟨b, behind', hb, -, hbcons⟩
        · rw [hb, hbnil]
          rfl
        · rcases takeFirst_spec ahead with ⟨ha, hanil⟩ | ⟨a, ahead', ha, halen, hacons⟩
          · rw [hb, ha, hbcons, hanil]
            rfl
          · rw [hb, ha, hbcons, hacons]
            dsimp only
            split_ifs
            · exact ih (by rw [halen]; exact hlen)
            · rfl

variable {behind ahead r : List ν}

theorem bindScan_frame (c : List ν) (h : bindScan isTerm fire behind ahead = some r) :
    bindScan isTerm fire (behind ++ c) ahead = some (r ++ c) := by
  fun_induction bindScan isTerm fire behind ahead with
  | case1 behind =>
    rw [← Option.some.inj h]
    rfl
  | case2 behind x ahead hx ih =>
    rw [bindScan, hx]
    exact ih h
  | case3 x mk hx b behind a ahead hterm ih =>
    rw [cons_append, bindScan, hx]
    simp only [hterm, if_true]
    exact ih h
  | case4 => cases h
  | case5 => cases h

theorem bindScan_append (ahead' : List ν) (h : bindScan isTerm fire behind ahead = some r) :
    bindScan isTerm fire behind (ahead ++ ahead') = bindScan isTerm fire r ahead' := by
  fun_induction bindScan isTerm fire behind ahead with
  | case1 behind =>
    rw [← Option.some.inj h]
    rfl
  | case2 behind x ahead hx ih =>
    rw [cons_append, bindScan, hx]
    exact ih h
  | case3 x mk hx b behind a ahead hterm ih =>
    rw [cons_append, cons_append, bindScan, hx]
    simp only [hterm, if_true]
    exact ih h
  | case4 => cases h
  | case5 => cases h

theorem bindScan_append_of_some {ahead' r' : List ν} (h : bindScan isTerm fire [] ahead = some r)
    (h' : bindScan isTerm fire [] ahead' = some r') :
    bindScan isTerm fire [] (ahead ++ ahead') = some (r' ++ r) := by
  rw [bindScan_append ahead' h]
  exact bindScan_frame r h'

theorem bindScan_operator {x a b : ν} {mk : ν → ν → ν}
    (h : bindScan isTerm fire [] ahead = some [b]) (hx : fire x = some mk) (hb : isTerm b = true)
    (ha : isTerm a = true) :
    bindScan isTerm fire [] (ahead ++ [x, a]) = some [mk b a] := by
  rw [bindScan_append [x, a] h, bindScan, hx]
  simp [hb, ha, bindScan]

theorem bindScan_pieces {Y₀ Y₁ : List κ → ν → Prop}
    (hkeep : ∀ xs x, fire x = none → Y₀ xs x → Y₁ xs x) (hbind : ∀ bs b xs x as a mk, fire x = some
      mk → isTerm b = true → isTerm a = true → Y₁ bs b → Y₀ xs x → Y₀ as a → Y₁ (bs ++ xs ++ as) (mk
      b a)) (h : bindScan isTerm fire behind ahead = some r) {L₁ L₂ : List κ}
    (hbehind : Pieces Y₁ L₁ behind.reverse) (hahead : Pieces Y₀ L₂ ahead) :
    Pieces Y₁ (L₁ ++ L₂) r.reverse := by
  fun_induction bindScan isTerm fire behind ahead generalizing L₁ L₂ with
  | case1 behind =>
    rw [← Option.some.inj h, pieces_nil_right.mp hahead, append_nil]
    exact hbehind
  | case2 behind x ahead hx ih =>
    obtain ⟨xs, L', rfl, hY, hahead⟩ := pieces_cons_right.mp hahead
    rw [← append_assoc]
    refine ih h ?_ hahead
    rw [reverse_cons]
    exact hbehind.append (Pieces.single (hkeep xs x hx hY))
  | case3 x mk hx b behind a ahead hterm ih =>
    obtain ⟨xs, L', rfl, hY, hahead⟩ := pieces_cons_right.mp hahead
    obtain ⟨as, L', rfl, hYa, hahead⟩ := pieces_cons_right.mp hahead
    rw [reverse_cons] at hbehind
    obtain ⟨L, bs, rfl, hbehind, hYb⟩ := pieces_append_right.mp hbehind
    obtain ⟨hb, ha⟩ := (Bool.and_eq_true _ _).mp hterm
    have hnew := hbind bs b xs x as a mk hx hb ha (pieces_single.mp hYb) hY hYa
    have heq : L ++ bs ++ (xs ++ (as ++ L')) = L ++ (bs ++ xs ++ as) ++ L' := by
      simp only [append_assoc]
    rw [heq]
    refine ih h ?_ hahead
    rw [reverse_cons]
    exact hbehind.append (Pieces.single hnew)
  | case4 => cases h
  | case5 => cases h

end Scan

end Support
