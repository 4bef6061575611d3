import Mathlib.Tactic.IntervalCases
import Th8.Expr.MakeTree

/-!
# The phases without the empty slots

Every search of a phase skips the empty slots, so the phases can be followed on the list
of the nodes that are left.  The one access that skips nothing is that of a unary
operator to the slot right of it, which is never empty.
-/

namespace Th8.Expr

open Support List Option Nat

variable {α : Type}

def bindUnaryNode (x : Node α) (nodes : List (Node α)) : Option (List (Node α)) :=
  match x, nodes with
  | .leaf (.op o), a :: rest => if isTerm a then some (.unary o a :: rest) else none
  | _, _ => none

def unaryScan : List (Node α) → Option (List (Node α))
  | [] => some []
  | x :: rest => do
    let nodes ← unaryScan rest
    if isUnary x then bindUnaryNode x nodes else some (x :: nodes)

/-- The nodes that `?` takes. -/
def takeTernaryNodes (behind ahead : List (Node α)) :
    Option (Node α × List (Node α) × List (Node α)) :=
  match behind, ahead with
  | c :: behind, t :: colon :: e :: ahead =>
    if isTerm c && isTerm t && isOp .ternaryC colon && isTerm e then
      some (.binary .ternaryQ c (.binary .ternaryC t e), behind, ahead)
    else none
  | _, _ => none

/-- Phase 4 over `n` nodes. -/
def ternaryScan : ℕ → List (Node α) → List (Node α) → Option (List (Node α))
  | 0, behind, ahead => some (ahead.reverse ++ behind)
  | _ + 1, behind, [] => some behind
  | n + 1, behind, x :: ahead =>
    if isOp .ternaryQ x then
      match takeTernaryNodes behind ahead with
      | none => none
      | some (q, behind, ahead) => ternaryScan n (q :: behind) ahead
    else ternaryScan n (x :: behind) ahead

def stage (k : ℕ) (nodes : List (Node α)) : Option (List (Node α)) :=
  if k = 1 then unaryScan nodes
  else if k = 14 then (ternaryScan nodes.length [] nodes).map List.reverse
  else if k = 15 then bindScan isTerm fireAssign [] nodes.reverse
  else (bindScan isTerm (fireBinary k) [] nodes).map List.reverse

def phases : ℕ → List (Node α) → Option (List (Node α))
  | 0, nodes => some nodes
  | k + 1, nodes => (phases k nodes).bind (stage (k + 1))

def bracketNodes (tree : List (Token α) → Option (List (Node α))) :
    ℕ → List (Token α) → Option (List (Node α))
  | 0, ts => some (ts.map .leaf)
  | _ + 1, [] => some []
  | n + 1, .op .openBracket :: ts =>
    match matchBracket 1 ts with
    | none => none
    | some (us, rest) => do
      let sub ← tree us
      let nodes ← bracketNodes tree n rest
      some (sub ++ nodes)
  | n + 1, t :: ts => (bracketNodes tree n ts).map (.leaf t :: ·)

def treeNodes : ℕ → List (Token α) → Option (List (Node α))
  | 0, _ => none
  | levels + 1, ts =>
    if ts = [] then none
    else (bracketNodes (treeNodes levels) ts.length ts).bind (phases 15)

/-! ## From slots to nodes -/

theorem reduceOption_reverse (slots : Slots α) :
    slots.reverse.reduceOption = slots.reduceOption.reverse :=
  filterMap_reverse

def Ready : Slots α → Prop
  | [] => True
  | none :: rest => Ready rest
  | some x :: rest => (isUnary x = true → rest.head? ≠ some none) ∧ Ready rest

variable {slots : Slots α}

theorem ready_append {slots' : Slots α} (h : ∀ x ∈ slots.reduceOption, isUnary x = false)
    (h' : Ready slots') :
    Ready (slots ++ slots') := by
  induction slots with
  | nil => exact h'
  | cons s rest ih =>
    cases s with
    | none => exact ih h
    | some x =>
      rw [reduceOption_cons_of_some] at h
      refine ⟨fun hx => ?_, ih fun y hy => h y (mem_cons_of_mem x hy)⟩
      rw [h x mem_cons_self] at hx
      cases hx

theorem head_unarySlots {slots' : Slots α} (h : unarySlots slots = some slots')
    (hne : slots.head? ≠ some none) : slots'.head? ≠ some none := by
  rcases slots with _ | ⟨_ | x, rest⟩
  · cases h
    simp
  · exact absurd rfl hne
  · rw [unarySlots] at h
    cases hrest : unarySlots rest with
    | none =>
      rw [hrest] at h
      cases h
    | some r =>
      rw [hrest] at h
      simp only [bind_eq_bind, bind_some] at h
      split_ifs at h with hx
      · unfold bindUnary at h
        split at h
        · split_ifs at h
          cases h
          simp
        · cases h
      · cases h
        simp

theorem bindUnary_reduceOption (x : Node α) (hne : slots.head? ≠ some none) :
    (bindUnary x slots).map List.reduceOption = bindUnaryNode x slots.reduceOption := by
  rcases slots with _ | ⟨_ | a, rest⟩
  · rcases x with (_ | o) | _ | _ <;> rfl
  · exact absurd rfl hne
  · rcases x with (_ | o) | _ | _
    · rfl
    · rw [reduceOption_cons_of_some, bindUnary, bindUnaryNode]
      split_ifs <;> rfl
    · rfl
    · rfl

theorem unarySlots_reduceOption (h : Ready slots) :
    (unarySlots slots).map List.reduceOption = unaryScan slots.reduceOption := by
  induction slots with
  | nil => rfl
  | cons s rest ih =>
    cases s with
    | none =>
      rw [unarySlots, reduceOption_cons_of_none, ← ih h, Option.map_map]
      rfl
    | some x =>
      rw [unarySlots, reduceOption_cons_of_some, unaryScan, ← ih h.2]
      cases hrest : unarySlots rest with
      | none => rfl
      | some r =>
        simp only [bind_eq_bind, bind_some, map_some]
        split_ifs with hx
        · exact bindUnary_reduceOption x (head_unarySlots hrest (h.1 hx))
        · rfl

theorem binarySlots_reduceOption (p : ℤ) (slots : Slots α) :
    (binarySlots p slots).map List.reduceOption =
      (bindScan isTerm (fireBinary p) [] slots.reduceOption).map List.reverse := by
  have h : (bindSlots isTerm (fireBinary p) slots.length [] slots).map List.reduceOption =
      bindScan isTerm (fireBinary p) [] slots.reduceOption :=
    bindSlots_reduceOption (le_refl slots.length)
  rw [binarySlots, ← h, Option.map_map, Option.map_map]
  congr 1
  funext slots
  exact reduceOption_reverse slots

theorem assignSlots_reduceOption (slots : Slots α) :
    (assignSlots slots).map List.reduceOption =
      bindScan isTerm fireAssign [] slots.reduceOption.reverse := by
  rw [assignSlots, bindSlots_reduceOption (by rw [length_reverse]), reduceOption_reverse]
  rfl

theorem takeTernaryNodes_length {behind ahead behind' ahead' : List (Node α)} {q : Node α}
    (h : takeTernaryNodes behind ahead = some (q, behind', ahead')) :
    ahead'.length < ahead.length := by
  unfold takeTernaryNodes at h
  split at h
  · split_ifs at h
    obtain ⟨-, -, rfl⟩ : _ ∧ _ ∧ _ := by simpa using h
    simp only [length_cons]
    omega
  · cases h

theorem ternaryScan_length {n : ℕ} {behind ahead : List (Node α)} (hn : ahead.length ≤ n) :
    ternaryScan n behind ahead = ternaryScan ahead.length behind ahead := by
  induction n using Nat.strong_induction_on generalizing behind ahead with
  | _ n ih =>
    rcases ahead with _ | ⟨x, ahead⟩
    · cases n <;> rfl
    · obtain ⟨n, rfl⟩ : ∃ m, n = m + 1 := ⟨n - 1, by simp at hn; omega⟩
      have hlen : ahead.length ≤ n := le_of_succ_le_succ hn
      rw [length_cons, ternaryScan, ternaryScan]
      split_ifs
      · cases h : takeTernaryNodes behind ahead with
        | none => rfl
        | some p =>
          have hshort := takeTernaryNodes_length h
          dsimp only
          rw [ih n (lt_succ_self n) (by omega)]
          rcases lt_or_ge ahead.length (n + 1) with hlt | hge
          · exact (ih ahead.length hlt (by omega)).symm
          · omega
      · exact ih n (lt_succ_self n) hlen

theorem takeTernary_spec (behind ahead : Slots α) :
    (takeTernary behind ahead = none ∧
      takeTernaryNodes behind.reduceOption ahead.reduceOption = none) ∨
      ∃ q behind' ahead', takeTernary behind ahead = some (q, behind', ahead') ∧
        takeTernaryNodes behind.reduceOption ahead.reduceOption =
          some (q, behind'.reduceOption, ahead'.reduceOption) ∧
        ahead'.length = ahead.length := by
  rcases takeFirst_spec behind with ⟨hb, hbnil⟩ | ⟨c, b', hb, -, hbcons⟩
  · exact .inl ⟨by simp [takeTernary, hb], by simp [takeTernaryNodes, hbnil]⟩
  rcases takeFirst_spec ahead with ⟨h1, hnil1⟩ | ⟨t, a1, h1, hlen1, hcons1⟩
  · exact .inl ⟨by simp [takeTernary, hb, h1], by simp [takeTernaryNodes, hnil1]⟩
  rcases takeFirst_spec a1 with ⟨h2, hnil2⟩ | ⟨colon, a2, h2, hlen2, hcons2⟩
  · exact .inl ⟨by simp [takeTernary, hb, h1, h2], by simp [takeTernaryNodes, hcons1, hnil2]⟩
  rcases takeFirst_spec a2 with ⟨h3, hnil3⟩ | ⟨e, a3, h3, hlen3, hcons3⟩
  · exact .inl ⟨by simp [takeTernary, hb, h1, h2, h3],
      by simp [takeTernaryNodes, hcons1, hcons2, hnil3]⟩
  rw [hbcons, hcons1, hcons2, hcons3, takeTernaryNodes]
  have htake : takeTernary behind ahead =
      if isTerm c && isTerm t && isOp .ternaryC colon && isTerm e then
        some (.binary .ternaryQ c (.binary .ternaryC t e), b', a3) else none := by
    simp only [takeTernary, hb, h1, h2, h3, bind_eq_bind, bind_some]
  rw [htake]
  split_ifs
  · exact .inr ⟨_, b', a3, rfl, rfl, by rw [hlen3, hlen2, hlen1]⟩
  · exact .inl ⟨rfl, rfl⟩

theorem ternarySlots_reduceOption {n : ℕ} {behind ahead : Slots α} (hn : ahead.length ≤ n) :
    (ternarySlots n behind ahead).map List.reduceOption =
      ternaryScan ahead.reduceOption.length behind.reduceOption ahead.reduceOption := by
  induction n generalizing behind ahead with
  | zero =>
    rw [length_eq_zero_iff.mp (le_zero.mp hn)]
    rfl
  | succ n ih =>
    rcases ahead with _ | ⟨_ | x, ahead⟩
    · rfl
    · exact ih (le_of_succ_le_succ hn)
    · have hlen : ahead.length ≤ n := le_of_succ_le_succ hn
      rw [ternarySlots, reduceOption_cons_of_some, length_cons, ternaryScan]
      split_ifs with hx
      · rcases takeTernary_spec behind ahead with ⟨h, hno⟩ | ⟨q, b', a', h, hyes, hlen'⟩
        · rw [h, hno]
          rfl
        · rw [h, hyes]
          rw [ih (by rw [hlen']; exact hlen), reduceOption_cons_of_some]
          exact (ternaryScan_length (takeTernaryNodes_length hyes).le).symm
      · exact ih hlen

theorem map_bind {r : Option (Slots α)} {f : Slots α → Option (Slots α)}
    {g : List (Node α) → Option (List (Node α))}
    (h : ∀ slots, (f slots).map List.reduceOption = g slots.reduceOption) :
    (r.bind f).map List.reduceOption = (r.map List.reduceOption).bind g := by
  cases r with
  | none => rfl
  | some slots => exact h slots

theorem binarySlots_stage {k : ℕ} (hk : 2 ≤ k) (hk' : k ≤ 13) (slots : Slots α) :
    (binarySlots k slots).map List.reduceOption = stage k slots.reduceOption := by
  rw [binarySlots_reduceOption, stage, if_neg (by omega), if_neg (by omega), if_neg (by omega)]

theorem ternarySlots_stage (slots : Slots α) :
    ((ternarySlots slots.length [] slots).map List.reverse).map List.reduceOption =
      stage 14 slots.reduceOption := by
  have hscan : (ternarySlots slots.length [] slots).map List.reduceOption =
      ternaryScan slots.reduceOption.length [] slots.reduceOption :=
    ternarySlots_reduceOption (le_refl slots.length)
  rw [stage, if_neg (by omega), if_pos rfl, ← hscan, Option.map_map, Option.map_map]
  congr 1
  funext slots
  exact reduceOption_reverse slots

theorem assignSlots_stage (slots : Slots α) :
    (assignSlots slots).map List.reduceOption = stage 15 slots.reduceOption := by
  rw [assignSlots_reduceOption, stage, if_neg (by omega), if_neg (by omega), if_pos rfl]

theorem foldlM_binarySlots (n k : ℕ) (hk : 2 ≤ k) (hn : k + n ≤ 14) (r : Option (Slots α)) :
    (r.bind fun slots => ((List.range' k n).map fun p : ℕ => (p : ℤ)).foldlM
        (fun slots p => binarySlots p slots) slots).map List.reduceOption =
      (List.range' k n).foldl (fun nodes p => nodes.bind (stage p)) (r.map List.reduceOption) := by
  induction n generalizing k r with
  | zero => simp
  | succ n ih =>
    rw [range'_succ, map_cons, foldl_cons]
    simp only [foldlM_cons, bind_eq_bind]
    have hassoc := ih (k + 1) (by omega) (by omega) (r.bind (binarySlots k))
    rw [bind_assoc] at hassoc
    rw [hassoc, map_bind (binarySlots_stage hk (by omega))]

theorem bindOperators_reduceOption (h : Ready slots) :
    (bindOperators slots).map List.reduceOption = phases 15 slots.reduceOption := by
  have hphases (nodes : List (Node α)) : phases 15 nodes =
      (((List.range' 2 12).foldl (fun nodes p => nodes.bind (stage p))
        (unaryScan nodes)).bind (stage 14)).bind (stage 15) := rfl
  have hsplit : bindOperators slots = ((((unarySlots slots).bind fun slots =>
        ((List.range' 2 12).map fun p : ℕ => (p : ℤ)).foldlM
          (fun slots p => binarySlots p slots) slots).bind fun slots =>
        (ternarySlots slots.length [] slots).map List.reverse).bind assignSlots) := by
    simp only [bindOperators, bind_eq_bind, bind_assoc, bind_map]
    rfl
  rw [hsplit, map_bind assignSlots_stage, map_bind ternarySlots_stage,
    foldlM_binarySlots 12 2 le_rfl (by omega), unarySlots_reduceOption h, hphases]

end Th8.Expr
