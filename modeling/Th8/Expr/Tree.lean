import Mathlib.Tactic.Linarith
import Th8.Expr.Grammar

/-!
# Which token sequences make a tree

`th8ExprMakeTree` never parses by a grammar.  Here its run is followed over the levels of
brackets, and the sequences that it accepts are compared with the expressions of the
operator grammar.
-/

namespace Th8.Expr

open Support List Option

variable {α : Type}

/-- Tokens with `k` close brackets that none of their open brackets matches, where all
open brackets are matched. -/
inductive Closes : ℕ → List (Token α) → Prop
  | nil : Closes 0 []
  | token {k : ℕ} {t : Token α} {ts : List (Token α)} : t ≠ .op .openBracket →
      t ≠ .op .closeBracket → Closes k ts → Closes k (t :: ts)
  | open_ {k : ℕ} {ts : List (Token α)} : Closes (k + 1) ts → Closes k (.op .openBracket :: ts)
  | close {k : ℕ} {ts : List (Token α)} : Closes k ts → Closes (k + 1) (.op .closeBracket :: ts)

variable {k : ℕ} {us : List (Token α)}

theorem Closes.append {j : ℕ} {vs : List (Token α)} (hu : Closes j us) (hv : Closes k vs) :
    Closes (j + k) (us ++ vs) := by
  induction hu with
  | nil => simpa using hv
  | token ho hc _ ih => exact .token ho hc ih
  | @open_ j ts _ ih => exact .open_ (by rwa [Nat.add_right_comm])
  | @close j ts _ ih =>
    rw [Nat.add_right_comm]
    exact .close ih

theorem Closes.brackets (h : Closes 0 us) :
    Closes 0 (.op .openBracket :: (us ++ [.op .closeBracket])) :=
  .open_ (h.append (.close .nil))

theorem matchBracket_token {t : Token α} (ho : t ≠ .op .openBracket) (hc : t ≠ .op .closeBracket)
    (ts : List (Token α)) :
    matchBracket k (t :: ts) = (matchBracket k ts).map fun p => (t :: p.1, p.2) := by
  rcases t with a | o
  · rfl
  · cases o
    all_goals first
      | exact absurd rfl ho
      | exact absurd rfl hc
      | rfl

theorem matchBracket_append {j : ℕ} (h : Closes j us) (hjk : j ≤ k) (vs : List (Token α)) :
    matchBracket (k + 1) (us ++ vs) =
      (matchBracket (k - j + 1) vs).map fun p => (us ++ p.1, p.2) := by
  induction h generalizing k with
  | nil => simp
  | token ho hc _ ih =>
    rw [cons_append, matchBracket_token ho hc, ih hjk, Option.map_map]
    rfl
  | open_ _ ih =>
    rw [cons_append, matchBracket, ih (by omega), Option.map_map, Nat.add_sub_add_right]
    rfl
  | @close j ts _ ih =>
    obtain ⟨k, rfl⟩ : ∃ i, k = i + 1 := ⟨k - 1, by omega⟩
    rw [cons_append, matchBracket, if_neg (by omega), Nat.add_sub_cancel,
      ih (by omega), Option.map_map, Nat.add_sub_add_right]
    rfl

theorem matchBracket_closes (h : Closes 0 us) (vs : List (Token α)) :
    matchBracket 1 (us ++ .op .closeBracket :: vs) = some (us, vs) := by
  rw [matchBracket_append h le_rfl]
  simp [matchBracket]

variable {ts : List (Token α)}

theorem closes_of_matchBracket {rest : List (Token α)}
    (h : matchBracket (k + 1) ts = some (us, rest)) :
    ts = us ++ .op .closeBracket :: rest ∧ Closes k us := by
  induction ts generalizing k us rest with
  | nil => cases h
  | cons t ts ih =>
    by_cases ho : t = .op .openBracket
    · subst ho
      rw [matchBracket] at h
      obtain ⟨⟨us', rest'⟩, h', heq⟩ := map_eq_some_iff.mp h
      cases heq
      obtain ⟨rfl, hcloses⟩ := ih h'
      exact ⟨rfl, .open_ hcloses⟩
    · by_cases hc : t = .op .closeBracket
      · subst hc
        rw [matchBracket, Nat.add_sub_cancel] at h
        split_ifs at h with hk
        · cases h
          rw [hk]
          exact ⟨rfl, .nil⟩
        · obtain ⟨k, rfl⟩ : ∃ i, k = i + 1 := ⟨k - 1, by omega⟩
          obtain ⟨⟨us', rest'⟩, h', heq⟩ := map_eq_some_iff.mp h
          cases heq
          obtain ⟨rfl, hcloses⟩ := ih h'
          exact ⟨rfl, .close hcloses⟩
      · rw [matchBracket_token ho hc] at h
        obtain ⟨⟨us', rest'⟩, h', heq⟩ := map_eq_some_iff.mp h
        cases heq
        obtain ⟨rfl, hcloses⟩ := ih h'
        exact ⟨rfl, .token ho hc hcloses⟩

/-! ## Phase 1 on nodes -/

def items (tree : List (Token α) → Option (List (Node α))) (ts : List (Token α)) :
    Option (List (Node α)) :=
  bracketNodes tree ts.length ts

section items

variable {tree : List (Token α) → Option (List (Node α))}

theorem bracketNodes_token {n : ℕ} {t : Token α} (ho : t ≠ .op .openBracket) (ts : List (Token α)) :
    bracketNodes tree (n + 1) (t :: ts) = (bracketNodes tree n ts).map (.leaf t :: ·) := by
  rcases t with a | o
  · rfl
  · cases o
    all_goals first
      | exact absurd rfl ho
      | rfl

theorem bracketNodes_eq_items {n : ℕ} {ts : List (Token α)} (hn : ts.length ≤ n) :
    bracketNodes tree n ts = items tree ts := by
  induction n using Nat.strong_induction_on generalizing ts with
  | _ n ih =>
    rcases ts with _ | ⟨t, ts⟩
    · cases n <;> rfl
    · obtain ⟨n, rfl⟩ : ∃ m, n = m + 1 := ⟨n - 1, by simp at hn; omega⟩
      have hlen : ts.length ≤ n := Nat.le_of_succ_le_succ hn
      have htail (us : List (Token α)) (hus : us.length ≤ ts.length) :
          bracketNodes tree n us = bracketNodes tree ts.length us := by
        rw [ih n (Nat.lt_succ_self n) (hus.trans hlen)]
        rcases hlen.lt_or_eq with hlt | heq
        · exact (ih ts.length (by omega) hus).symm
        · rw [heq, ih n (Nat.lt_succ_self n) (hus.trans hlen)]
      rw [items, length_cons]
      by_cases ho : t = .op .openBracket
      · subst ho
        rw [bracketNodes, bracketNodes]
        cases hmatch : matchBracket 1 ts with
        | none => rfl
        | some p =>
          obtain ⟨us, rest⟩ := p
          obtain ⟨rfl, -⟩ := closes_of_matchBracket hmatch
          dsimp only
          rw [htail rest (by simp; omega)]
      · rw [bracketNodes_token ho, bracketNodes_token ho, htail ts le_rfl]

theorem items_token {t : Token α} (ho : t ≠ .op .openBracket) (ts : List (Token α)) :
    items tree (t :: ts) = (items tree ts).map (.leaf t :: ·) :=
  bracketNodes_token ho ts

theorem items_brackets {us : List (Token α)} (hus : Closes 0 us) (rest : List (Token α)) :
    items tree (.op .openBracket :: (us ++ .op .closeBracket :: rest)) =
      (tree us).bind fun sub => (items tree rest).map (sub ++ ·) := by
  rw [items, length_cons, bracketNodes, matchBracket_closes hus]
  dsimp only
  rw [bracketNodes_eq_items (by simp; omega)]
  cases tree us with
  | none => rfl
  | some sub => cases items tree rest <;> rfl

theorem items_eq_some_nil {ts : List (Token α)} (htree : ∀ us, tree us ≠ some [])
    (h : items tree ts = some []) : ts = [] := by
  rcases ts with _ | ⟨t, ts⟩
  · rfl
  · exfalso
    by_cases ho : t = .op .openBracket
    · subst ho
      rw [items, length_cons, bracketNodes] at h
      cases hmatch : matchBracket 1 ts with
      | none =>
        rw [hmatch] at h
        cases h
      | some p =>
        rw [hmatch] at h
        obtain ⟨sub, hsub, h⟩ := bind_eq_some_iff.mp h
        obtain ⟨nodes, -, h⟩ := bind_eq_some_iff.mp h
        obtain ⟨rfl, -⟩ := append_eq_nil_iff.mp (some.inj h)
        exact htree _ hsub
    · rw [items_token ho] at h
      obtain ⟨nodes, -, h⟩ := map_eq_some_iff.mp h
      cases h

end items

variable {n : Node α}

theorem finalPiece_quiet {xs : List (Node α)} (h : FinalPiece xs n) : isUnary n = false := by
  rcases h with h | ⟨-, rfl | rfl | rfl⟩
  · have hterm := ScanLevel.isTerm h
    rcases n with (a | o) | _ | _
    · rfl
    · cases hterm
    · rfl
    · rfl
  · rfl
  · rfl
  · rfl

theorem pieces_forall {κ ν : Type} {Y : List κ → ν → Prop} {P : ν → Prop} {L : List κ}
    {M : List ν} (h : Pieces Y L M) (hP : ∀ xs n, Y xs n → P n) : ∀ n ∈ M, P n := by
  induction h with
  | nil => simp
  | cons hY _ ih =>
    intro n hn
    rcases mem_cons.mp hn with rfl | hn
    · exact hP _ _ hY
    · exact ih n hn

variable {ns : List (Node α)}

theorem treeNodes_eq_some_iff {levels : ℕ} :
    treeNodes (levels + 1) ts = some ns ↔
      ts ≠ [] ∧ ∃ its, items (treeNodes levels) ts = some its ∧ Pieces FinalPiece its ns := by
  rw [treeNodes]
  split_ifs with hts
  · simp [hts]
  · simp only [hts, not_false_eq_true, ne_eq, true_and, bind_eq_some_iff, phases_eq_some_iff]
    rfl

theorem treeNodes_nil (levels : ℕ) : treeNodes levels ([] : List (Token α)) = none := by
  cases levels <;> rfl

theorem treeNodes_ne_nil (levels : ℕ) (ts : List (Token α)) : treeNodes levels ts ≠ some [] := by
  induction levels generalizing ts with
  | zero => simp [treeNodes]
  | succ levels ih =>
    rw [Ne, treeNodes_eq_some_iff]
    rintro ⟨hts, its, hits, hpieces⟩
    obtain rfl := pieces_nil_right.mp hpieces
    exact hts (items_eq_some_nil ih hits)

theorem treeNodes_quiet {levels : ℕ} (h : treeNodes levels ts = some ns) :
    ∀ n ∈ ns, isUnary n = false := by
  rcases levels with _ | levels
  · cases h
  · obtain ⟨-, its, -, hpieces⟩ := treeNodes_eq_some_iff.mp h
    exact pieces_forall hpieces fun xs n => finalPiece_quiet

/-! ## The array and the nodes -/

theorem takeFirst_head {slots slots' : Slots α} {x : Node α}
    (h : takeFirst slots = some (x, slots')) : ∃ rest, slots' = none :: rest := by
  rcases slots with _ | ⟨_ | y, slots⟩
  · cases h
  · obtain ⟨p, -, hp⟩ := map_eq_some_iff.mp h
    cases hp
    exact ⟨_, rfl⟩
  · cases h
    exact ⟨_, rfl⟩

theorem compact_spec {slots : Slots α} (h : slots.reduceOption = n :: ns) :
    ∃ rest, compact slots = some n :: rest ∧ rest.reduceOption = ns := by
  rcases takeFirst_spec slots with ⟨-, hnil⟩ | ⟨x, slots', htake, -, hcons⟩
  · rw [hnil] at h
    cases h
  · obtain ⟨rest, rfl⟩ := takeFirst_head htake
    rw [hcons] at h
    cases h
    exact ⟨rest, by rw [compact, htake]; rfl, rfl⟩

structure SameTrees (f : List (Token α) → Except Failure (Slots α))
    (g : List (Token α) → Option (List (Node α))) : Prop where
  nodes : ∀ us, (f us).toOption.map List.reduceOption = g us
  first : ∀ us slots, f us = .ok slots → ∃ x rest, slots = some x :: rest
  empty : g [] = none
  quiet : ∀ us ns, g us = some ns → ∀ n ∈ ns, isUnary n = false

variable {f : List (Token α) → Except Failure (Slots α)}

theorem bracketSlots_token {n : ℕ} {t : Token α} (ho : t ≠ .op .openBracket) (ts : List (Token α)) :
    bracketSlots f (n + 1) (t :: ts) =
      (bracketSlots f n ts).map fun slots => some (.leaf t) :: slots := by
  have hmap (r : Except Failure (Slots α)) :
      (do let slots ← r; .ok (some (.leaf t) :: slots)) =
        r.map fun slots => some (.leaf t) :: slots := by
    cases r <;> rfl
  rcases t with a | o
  · exact hmap _
  · cases o
    all_goals first
      | exact absurd rfl ho
      | exact hmap _

theorem toOption_eq_some {β : Type} {r : Except Failure β} {b : β} :
    r.toOption = some b ↔ r = .ok b := by
  cases r <;> simp [Except.toOption]

theorem SameTrees.ok_iff {g : List (Token α) → Option (List (Node α))} (h : SameTrees f g) :
    g us = some ns ↔ ∃ slots, f us = .ok slots ∧ slots.reduceOption = ns := by
  rw [← h.nodes us, map_eq_some_iff]
  simp only [toOption_eq_some]

/-- Phase 1 leaves the same nodes, and no unary operator before an empty slot. -/
theorem bracketSlots_spec {g : List (Token α) → Option (List (Node α))} (hfg : SameTrees f g)
    (n : ℕ) (ts : List (Token α)) :
    (bracketSlots f n ts).toOption.map List.reduceOption = bracketNodes g n ts ∧
      ∀ slots, bracketSlots f n ts = .ok slots → Ready slots ∧ slots.head? ≠ some none := by
  induction n generalizing ts with
  | zero =>
    have hhead (ts : List (Token α)) : (ts.map fun t => some (Node.leaf t)).head? ≠ some none := by
      cases ts <;> simp
    refine ⟨?_, ?_⟩
    · have hall : ((ts.map fun t => some (Node.leaf t)) : Slots α).reduceOption = ts.map .leaf := by
        induction ts with
        | nil => rfl
        | cons t ts ih => rw [map_cons, reduceOption_cons_of_some, ih]; rfl
      exact congrArg some hall
    · rintro slots ⟨⟩
      refine ⟨?_, hhead ts⟩
      induction ts with
      | nil => trivial
      | cons t ts ih => exact ⟨fun _ => hhead ts, ih⟩
  | succ n ih =>
    rcases ts with _ | ⟨t, ts⟩
    · refine ⟨rfl, ?_⟩
      rintro slots ⟨⟩
      exact ⟨trivial, by simp⟩
    by_cases ho : t = .op .openBracket
    · subst ho
      rw [bracketSlots, bracketNodes]
      cases hmatch : matchBracket 1 ts with
      | none => exact ⟨rfl, nofun⟩
      | some p =>
        obtain ⟨us, rest⟩ := p
        obtain ⟨hnodes, hready⟩ := ih rest
        rcases us with _ | ⟨u, us⟩
        · refine ⟨?_, nofun⟩
          simp only [hfg.empty]
          rfl
        · dsimp only
          rw [← hfg.nodes, ← hnodes]
          cases hsub : f (u :: us) with
          | error e => exact ⟨rfl, nofun⟩
          | ok sub =>
            cases hslots : bracketSlots f n rest with
            | error e => exact ⟨rfl, nofun⟩
            | ok slots =>
              obtain ⟨x, sub, rfl⟩ := hfg.first _ _ hsub
              have hquiet := hfg.quiet _ _ (hfg.ok_iff.mpr ⟨_, hsub, rfl⟩)
              rw [reduceOption_cons_of_some] at hquiet
              refine ⟨?_, ?_⟩
              · simp [Except.toOption, reduceOption_append]
              · rintro slots' ⟨⟩
                refine ⟨?_, by simp⟩
                refine ⟨fun hx => ?_, ?_⟩
                · rw [hquiet x mem_cons_self] at hx
                  cases hx
                · show Ready (none :: (sub ++ none :: slots))
                  exact ready_append (fun y hy => hquiet y
                    (mem_cons_of_mem x hy)) (hready slots hslots).1
    · obtain ⟨hnodes, hready⟩ := ih ts
      rw [bracketSlots_token ho, bracketNodes_token ho, ← hnodes]
      cases hslots : bracketSlots f n ts with
      | error e => exact ⟨rfl, nofun⟩
      | ok slots =>
        refine ⟨rfl, ?_⟩
        rintro slots' ⟨⟩
        obtain ⟨hr, hh⟩ := hready slots hslots
        exact ⟨⟨fun _ => hh, hr⟩, by simp⟩

theorem makeTreeWithin_sameTrees (levels : ℕ) :
    SameTrees (makeTreeWithin (α := α) levels) (treeNodes levels) := by
  induction levels with
  | zero => exact ⟨fun _ => rfl, nofun, rfl, nofun⟩
  | succ levels ih =>
    have hboth (ts : List (Token α)) :
        (makeTreeWithin (levels + 1) ts).toOption.map List.reduceOption =
            treeNodes (levels + 1) ts ∧
          ∀ slots, makeTreeWithin (levels + 1) ts = .ok slots →
            ∃ x rest, slots = some x :: rest := by
      by_cases hts : ts = []
      · subst hts
        exact ⟨rfl, nofun⟩
      · obtain ⟨hnodes, hready⟩ := bracketSlots_spec ih ts.length ts
        have hne := treeNodes_ne_nil (levels + 1) ts
        rw [makeTreeWithin, if_neg hts]
        rw [treeNodes, if_neg hts, ← hnodes] at hne ⊢
        cases hslots : bracketSlots (makeTreeWithin levels) ts.length ts with
        | error e => exact ⟨rfl, nofun⟩
        | ok slots =>
          have hbind := bindOperators_reduceOption (hready slots hslots).1
          rw [hslots] at hne
          replace hne : phases 15 slots.reduceOption ≠ some [] := hne
          simp only [ok_bind, bind_some, map_some, Except.toOption]
          rw [← hbind] at hne ⊢
          cases hop : bindOperators slots with
          | none => exact ⟨rfl, nofun⟩
          | some slots' =>
            rw [hop] at hne
            rcases hred : slots'.reduceOption with _ | ⟨x, ns⟩
            · exact absurd (congrArg some hred) hne
            · obtain ⟨rest, hcompact, hrest⟩ := compact_spec hred
              dsimp only
              rw [hcompact]
              refine ⟨?_, ?_⟩
              · show some (x :: rest.reduceOption) = some slots'.reduceOption
                rw [hred, hrest]
              · rintro _ ⟨⟩
                exact ⟨x, rest, rfl⟩
    exact ⟨fun ts => (hboth ts).1, fun ts => (hboth ts).2, treeNodes_nil _,
      fun _ _ => treeNodes_quiet⟩

theorem makeTree_eq_ok_iff :
    (∃ rest, makeTree ts = .ok (some n :: rest)) ↔
      ∃ ns, treeNodes (mxExprDepth + 1) ts = some (n :: ns) := by
  have hsame := makeTreeWithin_sameTrees (α := α) (mxExprDepth + 1)
  constructor
  · rintro ⟨rest, h⟩
    exact ⟨rest.reduceOption, hsame.ok_iff.mpr ⟨_, h, rfl⟩⟩
  · rintro ⟨ns, h⟩
    obtain ⟨slots, hslots, hred⟩ := hsame.ok_iff.mp h
    obtain ⟨x, rest, rfl⟩ := hsame.first _ _ hslots
    obtain ⟨rfl, -⟩ := List.cons.inj hred
    exact ⟨rest, hslots⟩

end Th8.Expr
