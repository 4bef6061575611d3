import Th8.Expr.Acceptance

/-!
# The tree and the precedence parse

The tree that the phases build groups every operator but assignment from the left, while
the comments describe exponentiation and the conditional operator as grouping from the
right.  The two agree exactly where neither stands as an operand of itself.
-/

namespace Th8.Expr

open Support List

variable {α : Type}

variable {s : Shape} {n : Node α}

theorem level_cases {κ : Type} {Atom : List κ → Node α → Prop} {tok : Op → κ} {j : ℕ} {ts : List κ}
    (h : Level Atom tok s j ts n) :
    (j = 0 ∧ Atom ts n) ∨
    (∃ k, j = k + 1 ∧ Level Atom tok s k ts n) ∨
    (j = 1 ∧ ∃ o xs m, iPrecedence o = 1 ∧ ts = tok o :: xs ∧ n = .unary o m ∧
      Level Atom tok s 1 xs m) ∨
    (2 ≤ j ∧ j ≤ 13 ∧ ∃ o xs ys l r, iPrecedence o = j ∧ ts = xs ++ tok o :: ys ∧
      n = .binary o l r ∧ Level Atom tok s (s.left j) xs l ∧ Level Atom tok s (s.right j) ys r) ∨
    (j = 14 ∧ ∃ xs ys zs c t e, ts = xs ++ tok .ternaryQ :: (ys ++ tok .ternaryC :: zs) ∧
      n = .binary .ternaryQ c (.binary .ternaryC t e) ∧ Level Atom tok s s.cond xs c ∧
      Level Atom tok s s.mid ys t ∧ Level Atom tok s s.els zs e) ∨
    (j = 15 ∧ ∃ xs ys l r, ts = xs ++ tok .varAssign :: ys ∧ n = .binary .varAssign l r ∧
      Level Atom tok s 14 xs l ∧ Level Atom tok s 15 ys r) := by
  cases h with
  | atom h => exact .inl ⟨rfl, h⟩
  | up h => exact .inr (.inl ⟨_, rfl, h⟩)
  | unary ho h => exact .inr (.inr (.inl ⟨rfl, _, _, _, ho, rfl, rfl, h⟩))
  | binary h2 h13 ho hl hr =>
    exact .inr (.inr (.inr (.inl ⟨h2, h13, _, _, _, _, _, ho, rfl, rfl, hl, hr⟩)))
  | ternary hc ht he =>
    exact .inr (.inr (.inr (.inr (.inl ⟨rfl, _, _, _, _, _, _, rfl, rfl, hc, ht, he⟩))))
  | assign hl hr =>
    exact .inr (.inr (.inr (.inr (.inr ⟨rfl, _, _, _, _, rfl, rfl, hl, hr⟩))))

def rootLevel : Node α → ℤ
  | .leaf _ => 0
  | .unary o _ => iPrecedence o
  | .binary o _ _ => iPrecedence o

section Tokens

variable {inner inner' : List (Token α) → Node α → Prop} {s s' : Shape}

variable {k : ℕ} {ts : List (Token α)} {n : Node α}

theorem brackets_of_rootLevel (h : Level (TokenAtom inner) .op s k ts n)
    (hk : (k : ℤ) < rootLevel n) :
    ∃ us, ts = .op .openBracket :: (us ++ [.op .closeBracket]) ∧ inner us n := by
  induction h with
  | atom h =>
    rcases h with ⟨a, -, rfl⟩ | h
    · simp [rootLevel] at hk
    · exact h
  | up _ ih => exact ih (by push_cast at hk; omega)
  | unary ho _ _ => simp [rootLevel, ho] at hk
  | binary _ _ ho _ _ _ _ => simp [rootLevel, ho] at hk
  | ternary _ _ _ _ _ _ => simp [rootLevel, iPrecedence] at hk
  | assign _ _ _ _ => simp [rootLevel, iPrecedence] at hk

variable {o : Op}

theorem brackets_ne_operator {us xs ys : List (Token α)} (hus : Closes 0 us) (hxs : Closes 0 xs)
    (hne : xs ≠ []) :
    .op .openBracket :: (us ++ [.op .closeBracket]) ≠ xs ++ .op o :: ys := by
  intro h
  rcases hxs.cases_zero with rfl | ⟨t, xs', rfl, ho, -, -⟩ | ⟨vs, xs', rfl, hvs, -⟩
  · exact hne rfl
  · exact ho (List.cons.inj h).1.symm
  · rw [cons_append, append_assoc, cons_append] at h
    have htail := (List.cons.inj h).2
    have hmatch := matchBracket_closes hus []
    rw [htail, matchBracket_closes hvs] at hmatch
    simp at hmatch

theorem level_down (hinner : ∀ us n, inner us n → Closes 0 us)
    (hinner' : ∀ us n, inner' us n → Closes 0 us) (h : Level (TokenAtom inner) .op s (k + 1) ts n)
    (h' : Level (TokenAtom inner') .op s' k ts n) : Level (TokenAtom inner) .op s k ts n := by
  rcases level_cases h with ⟨hj, -⟩ | ⟨j, hj, hup⟩ | ⟨hj, o, xs, m, ho, rfl, rfl, -⟩ |
    ⟨-, -, o, xs, ys, l, r, ho, rfl, rfl, hl, -⟩ |
    ⟨hj, xs, ys, zs, c, t, e, rfl, rfl, hc, -, -⟩ | ⟨hj, xs, ys, l, r, rfl, rfl, hl, -⟩
  · omega
  · obtain rfl : k = j := by omega
    exact hup
  · obtain ⟨us, heq, -⟩ := brackets_of_rootLevel h' (by simp [rootLevel, ho]; omega)
    exact absurd (List.cons.inj heq).1 (op_ne_bracket (by rw [ho]; decide)).1
  · obtain ⟨us, heq, hus⟩ := brackets_of_rootLevel h' (by simp [rootLevel, ho])
    exact absurd heq.symm (brackets_ne_operator (hinner' _ _ hus) (hl.closes hinner) hl.ne_nil)
  · obtain ⟨us, heq, hus⟩ := brackets_of_rootLevel h' (by simp [rootLevel, iPrecedence]; omega)
    exact absurd heq.symm (brackets_ne_operator (hinner' _ _ hus) (hc.closes hinner) hc.ne_nil)
  · obtain ⟨us, heq, hus⟩ := brackets_of_rootLevel h' (by simp [rootLevel, iPrecedence]; omega)
    exact absurd heq.symm (brackets_ne_operator (hinner' _ _ hus) (hl.closes hinner) hl.ne_nil)

def tokenWeight (ts : List (Token α)) : ℕ :=
  ts.countP fun t => match t with
    | .op o => decide (0 < iPrecedence o)
    | .lit _ => true

def nodeWeight : Node α → ℕ
  | .leaf _ => 1
  | .unary _ l => nodeWeight l + 1
  | .binary _ l r => nodeWeight l + nodeWeight r + 1

theorem tokenWeight_append (xs ys : List (Token α)) :
    tokenWeight (xs ++ ys) = tokenWeight xs + tokenWeight ys := countP_append

theorem tokenWeight_op (ho : 0 < iPrecedence o) (ts : List (Token α)) :
    tokenWeight (.op o :: ts) = tokenWeight ts + 1 := by
  simp [tokenWeight, ho]

theorem tokenWeight_brackets (us : List (Token α)) :
    tokenWeight (.op .openBracket :: (us ++ [.op .closeBracket])) = tokenWeight us := by
  simp [tokenWeight, iPrecedence]

theorem tokenWeight_of_level (hinner : ∀ us n, inner us n → tokenWeight us = nodeWeight n)
    (h : Level (TokenAtom inner) .op s k ts n) :
    tokenWeight ts = nodeWeight n := by
  induction h with
  | atom h =>
    rcases h with ⟨a, rfl, rfl⟩ | ⟨us, rfl, hus⟩
    · rfl
    · rw [tokenWeight_brackets, hinner _ _ hus]
  | up _ ih => exact ih
  | unary ho _ ih => rw [tokenWeight_op (by rw [ho]; decide), ih, nodeWeight]
  | binary _ _ ho _ _ ihl ihr =>
    rw [tokenWeight_append, tokenWeight_op (by rw [ho]; omega), ihl, ihr, nodeWeight]
    rfl
  | ternary _ _ _ ihc iht ihe =>
    rw [tokenWeight_append, tokenWeight_op (by decide), tokenWeight_append,
      tokenWeight_op (by decide), ihc, iht, ihe, nodeWeight, nodeWeight]
    omega
  | assign _ _ ihl ihr =>
    rw [tokenWeight_append, tokenWeight_op (by decide), ihl, ihr, nodeWeight]
    rfl

theorem tokenWeight_of_grammar {levels : ℕ} (h : Grammar s levels ts n) :
    tokenWeight ts = nodeWeight n := by
  induction levels generalizing ts n with
  | zero => exact h.elim
  | succ levels ih => exact tokenWeight_of_level (fun us n => ih) h

theorem split_unique {o' : Op} (ho : 0 < iPrecedence o) (ho' : 0 < iPrecedence o')
    {xs xs' ys ys' : List (Token α)} (h : xs ++ .op o :: ys = xs' ++ .op o' :: ys')
    (hweight : tokenWeight xs = tokenWeight xs') : xs = xs' ∧ ys = ys' := by
  have hnone {p : Op} (hp : 0 < iPrecedence p) {as bs cs : List (Token α)}
      (hcs : as = bs ++ .op p :: cs) (hw : tokenWeight as = tokenWeight bs) : False := by
    rw [hcs, tokenWeight_append, tokenWeight_op hp] at hw
    omega
  rcases append_eq_append_iff.mp h with ⟨as, rfl, has⟩ | ⟨as, rfl, has⟩
  · rcases as with _ | ⟨a, as⟩
    · simp only [nil_append, List.cons.injEq] at has
      exact ⟨(append_nil xs).symm, has.2⟩
    · obtain ⟨rfl, -⟩ := List.cons.inj has
      exact (hnone ho rfl hweight.symm).elim
  · rcases as with _ | ⟨a, as⟩
    · simp only [nil_append, List.cons.injEq] at has
      exact ⟨append_nil xs', has.2.symm⟩
    · obtain ⟨rfl, -⟩ := List.cons.inj has
      exact (hnone ho' rfl hweight).elim

end Tokens

/-! ## Trees of both groupings -/

variable {inner : List (Token α) → Node α → Prop} {ts : List (Token α)}

/-- A tree that comes from the documented grouping and from that of the phases comes from
the grammar in which the two do not differ. -/
theorem level_ungrouped {inner' : List (Token α) → Node α → Prop}
    (hcloses : ∀ us n, inner us n → Closes 0 us) (hcloses' : ∀ us n, inner' us n → Closes 0 us)
    (hweight : ∀ us n, inner us n → tokenWeight us = nodeWeight n)
    (hweight' : ∀ us n, inner' us n → tokenWeight us = nodeWeight n)
    {inner'' : List (Token α) → Node α → Prop}
    (hboth : ∀ us n, inner us n → inner' us n → inner'' us n) {k : ℕ}
    (h : Level (TokenAtom inner) .op documented k ts n)
    (h' : Level (TokenAtom inner') .op scanned k ts n) :
    Level (TokenAtom inner'') .op ungrouped k ts n := by
  -- by the number of tokens, and for the same tokens by the level
  induction hlen : ts.length using Nat.strong_induction_on generalizing k ts n with
  | _ len ihlen =>
    induction k with
    | zero =>
      rcases level_cases h with ⟨-, hatom⟩ | ⟨j, hj, -⟩ | ⟨hj, -⟩ | ⟨hj, -⟩ | ⟨hj, -⟩ |
        ⟨hj, -⟩ <;> try omega
      rcases level_cases h' with ⟨-, hatom'⟩ | ⟨j, hj, -⟩ | ⟨hj, -⟩ | ⟨hj, -⟩ | ⟨hj, -⟩ |
        ⟨hj, -⟩ <;> try omega
      refine .atom ?_
      rcases hatom with hlit | ⟨us, hus, hn⟩
      · exact .inl hlit
      · rcases hatom' with ⟨a, ha, -⟩ | ⟨us', hus', hn'⟩
        · rw [ha] at hus
          cases hus
        · obtain rfl : us = us' := by
            have := (List.cons.inj (hus.symm.trans hus')).2
            exact append_cancel_right this
          exact .inr ⟨us, hus, hboth us n hn hn'⟩
    | succ k ihk =>
      have hdown (hk : Level (TokenAtom inner) .op documented k ts n) :
          Level (TokenAtom inner'') .op ungrouped (k + 1) ts n :=
        (ihk hk (level_down hcloses' hcloses h' hk)).up
      have hdown' (hk : Level (TokenAtom inner') .op scanned k ts n) :
          Level (TokenAtom inner'') .op ungrouped (k + 1) ts n :=
        (ihk (level_down hcloses hcloses' h hk) hk).up
      have hw {s : Shape} {k : ℕ} {xs : List (Token α)} {m : Node α}
          (hx : Level (TokenAtom inner) .op s k xs m) : tokenWeight xs = nodeWeight m :=
        tokenWeight_of_level hweight hx
      have hw' {s : Shape} {k : ℕ} {xs : List (Token α)} {m : Node α}
          (hx : Level (TokenAtom inner') .op s k xs m) : tokenWeight xs = nodeWeight m :=
        tokenWeight_of_level hweight' hx
      rcases level_cases h' with ⟨hj', -⟩ | ⟨j, hj', hup⟩ | ⟨hj', o', xs', m', ho', hts, hn, hm'⟩ |
        ⟨h2, h13, o', xs', ys', l', r', ho', hts, hn, hl', hr'⟩ |
        ⟨hj', xs', ys', zs', c', t', e', hts, hn, hc', ht', he'⟩ |
        ⟨hj', xs', ys', l', r', hts, hn, hl', hr'⟩
      · omega
      · obtain rfl : k = j := by omega
        exact hdown' hup
      all_goals rcases level_cases h with ⟨hj, -⟩ | ⟨j, hj, hup⟩ |
        ⟨hj, o, xs, m, ho, rfl, rfl, hm⟩ |
        ⟨hj, hjj, o, xs, ys, l, r, ho, rfl, rfl, hl, hr⟩ |
        ⟨hj, xs, ys, zs, c, t, e, rfl, rfl, hc, ht, he⟩ |
        ⟨hj, xs, ys, l, r, rfl, rfl, hl, hr⟩
      all_goals first
        | omega
        | (obtain rfl : k = j := by omega
           exact hdown hup)
        | skip
      · -- unary operators
        obtain rfl : k = 0 := by omega
        cases hts
        cases hn
        exact .unary ho (ihlen _ (by rw [← hlen]; simp) hm hm' rfl)
      · -- binary operators
        obtain ⟨rfl, rfl, rfl⟩ : o = o' ∧ l = l' ∧ r = r' := by simpa using hn
        have hpos : 0 < iPrecedence o := by rw [ho]; omega
        obtain ⟨rfl, rfl⟩ := split_unique hpos hpos hts ((hw hl).trans (hw' hl').symm)
        have hxlen : xs.length < len := by rw [← hlen]; simp
        have hylen : ys.length < len := by rw [← hlen]; simp; omega
        by_cases hk : k + 1 = 2
        · obtain rfl : k = 1 := by omega
          refine .binary h2 h13 ho ?_ ?_
          · exact ihlen _ hxlen hl (level_down hcloses' hcloses hl' hl) rfl
          · exact ihlen _ hylen (level_down hcloses hcloses' hr hr') hr' rfl
        · have hleft : documented.left (k + 1) = k + 1 := if_neg hk
          have hright : documented.right (k + 1) = k := if_neg hk
          rw [hleft] at hl
          rw [hright] at hr
          have hleft' : ungrouped.left (k + 1) = k + 1 := if_neg hk
          refine .binary h2 h13 ho ?_ ?_
          · rw [hleft']
            exact ihlen _ hxlen hl hl' rfl
          · exact ihlen _ hylen hr hr' rfl
      · -- the conditional operator
        obtain rfl : k = 13 := by omega
        obtain ⟨rfl, rfl, rfl⟩ : c = c' ∧ t = t' ∧ e = e' := by simpa using hn
        obtain ⟨rfl, hrest⟩ := split_unique (by decide) (by decide) hts
          ((hw hc).trans (hw' hc').symm)
        obtain ⟨rfl, rfl⟩ := split_unique (by decide) (by decide) hrest
          ((hw ht).trans (hw' ht').symm)
        have hxlen : xs.length < len := by rw [← hlen]; simp
        have hylen : ys.length < len := by rw [← hlen]; simp; omega
        have hzlen : zs.length < len := by rw [← hlen]; simp; omega
        refine .ternary ?_ ?_ ?_
        · exact ihlen _ hxlen hc (level_down hcloses' hcloses hc' hc) rfl
        · exact ihlen _ hylen (level_down hcloses hcloses' ht ht') ht' rfl
        · exact ihlen _ hzlen (level_down hcloses hcloses' he he') he' rfl
      · -- assignment
        obtain rfl : k = 14 := by omega
        obtain ⟨rfl, rfl⟩ : l = l' ∧ r = r' := by simpa using hn
        obtain ⟨rfl, rfl⟩ := split_unique (by decide) (by decide) hts ((hw hl).trans (hw' hl').symm)
        have hxlen : xs.length < len := by rw [← hlen]; simp
        have hylen : ys.length < len := by rw [← hlen]; simp; omega
        exact .assign (ihlen _ hxlen hl hl' rfl) (ihlen _ hylen hr hr' rfl)

variable {levels : ℕ}

theorem grammar_ungrouped {levels' : ℕ} (h : Grammar documented levels ts n)
    (h' : Grammar scanned levels' ts n) :
    Grammar ungrouped levels' ts n := by
  induction levels' generalizing levels ts n with
  | zero => exact h'.elim
  | succ levels' ih =>
    rcases levels with _ | levels
    · exact h.elim
    · exact level_ungrouped (fun us n => Grammar.closes) (fun us n => Grammar.closes)
        (fun us n => tokenWeight_of_grammar) (fun us n => tokenWeight_of_grammar)
        (fun us n hus hus' => ih hus hus') h h'

theorem grammar_scanned_of_ungrouped (h : Grammar ungrouped levels ts n) :
    Grammar scanned levels ts n := by
  refine h.weaken (fun p => ?_) (fun _ => le_rfl) (by decide) le_rfl le_rfl
  show (if p = 2 then 1 else p) ≤ p
  split_ifs <;> omega

theorem grammar_documented_of_ungrouped (h : Grammar ungrouped levels ts n) :
    Grammar documented levels ts n := by
  refine h.weaken (fun _ => le_rfl) (fun p => ?_) le_rfl (by decide) (by decide)
  show p - 1 ≤ if p = 2 then 2 else p - 1
  split_ifs <;> omega

theorem level_of_rootLevel_le {j k : ℕ} (h : Level (TokenAtom inner) .op s k ts n)
    (hj : rootLevel n ≤ j) (hjk : j ≤ k) :
    Level (TokenAtom inner) .op s j ts n := by
  induction k, hjk using Nat.le_induction with
  | base => exact h
  | succ k hjk ih =>
    refine ih ?_
    rcases level_cases h with ⟨hk, -⟩ | ⟨k', hk, hup⟩ | ⟨hk, o, xs, m, ho, rfl, rfl, -⟩ |
      ⟨-, -, o, xs, ys, l, r, ho, rfl, rfl, -, -⟩ |
      ⟨hk, xs, ys, zs, c, t, e, rfl, rfl, -, -, -⟩ | ⟨hk, xs, ys, l, r, rfl, rfl, -, -⟩
    · omega
    · obtain rfl : k = k' := by omega
      exact hup
    · rw [rootLevel, ho] at hj
      omega
    · rw [rootLevel, ho] at hj
      omega
    · simp only [rootLevel, iPrecedence] at hj
      omega
    · simp only [rootLevel, iPrecedence] at hj
      omega

theorem level_lit (s : Shape) (k : ℕ) (a : α) :
    Level (TokenAtom inner) .op s k [.lit a] (.leaf (.lit a)) :=
  Level.mono (.atom (.inl ⟨a, rfl, rfl⟩)) (Nat.zero_le k)

theorem level_lit_binary {p : ℕ} {o : Op} (a : α) {ys : List (Token α)} {r : Node α} (h2 : 2 ≤ p)
    (h13 : p ≤ 13) (ho : iPrecedence o = p) (hr : Level (TokenAtom inner) .op s (s.right p) ys r) :
    Level (TokenAtom inner) .op s p (.lit a :: .op o :: ys) (.binary o (.leaf (.lit a)) r) := by
  have hlevel := Level.binary h2 h13 ho (level_lit s (s.left p) a) hr
  exact hlevel

def TreeIsParse (ts : List (Token α)) : Prop :=
  ∃ n rest levels, makeTree ts = .ok (some n :: rest) ∧ Grammar documented levels ts n

/-- The tree of an expression is its precedence parse exactly when the brackets do not
nest too deep, no exponentiation stands without brackets as an operand of another, and no
conditional operator stands without brackets as an operand of another. -/
theorem treeIsParse_iff {ts : List (Token α)} (h : IsExpression ts) :
    TreeIsParse ts ↔ ∃ n, Grammar ungrouped (mxExprDepth + 1) ts n := by
  constructor
  · rintro ⟨n, rest, levels, hmake, hn⟩
    obtain ⟨ns, hns⟩ := makeTree_eq_ok_iff.mp ⟨rest, hmake⟩
    obtain ⟨n', hn', hscanned⟩ := grammar_scanned_of_accepted hn hns
    cases hn'
    exact ⟨n, grammar_ungrouped hn hscanned⟩
  · rintro ⟨n, hn⟩
    have htree := treeNodes_of_grammar (grammar_scanned_of_ungrouped hn)
    obtain ⟨rest, hmake⟩ := makeTree_eq_ok_iff.mpr ⟨[], htree⟩
    exact ⟨n, rest, _, hmake, grammar_documented_of_ungrouped hn⟩

/-- A sum is parsed. -/
theorem treeIsParse_sum : TreeIsParse [Token.lit (0x31 : Byte), .op .add, .lit 0x32] := by
  have hsum (s : Shape) : Grammar s (mxExprDepth + 1) [.lit (0x31 : Byte), .op .add, .lit 0x32]
      (.binary .add (.leaf (.lit 0x31)) (.leaf (.lit 0x32))) := by
    have hlevel : Level (TokenAtom (Grammar s mxExprDepth)) .op s 4
        [.lit (0x31 : Byte), .op .add, .lit 0x32]
        (.binary .add (.leaf (.lit 0x31)) (.leaf (.lit 0x32))) :=
      level_lit_binary 0x31 (by decide) (by decide) rfl (level_lit s _ 0x32)
    exact hlevel.mono (by decide)
  exact (treeIsParse_iff ⟨_, _, hsum documented⟩).mpr ⟨_, hsum ungrouped⟩

/-- A chain of exponentiations is grouped from the left. -/
theorem treeIsParse_power :
    IsExpression [Token.lit (0x32 : Byte), .op .exponent, .lit 0x33, .op .exponent, .lit 0x32] ∧
      ¬ ∀ ts : List (Token Byte), IsExpression ts → TreeIsParse ts := by
  have hexpr : IsExpression [Token.lit (0x32 : Byte), .op .exponent, .lit 0x33,
      .op .exponent, .lit 0x32] := by
    have hlevel : Level (TokenAtom (Grammar documented 0)) .op documented 2
        [Token.lit (0x32 : Byte), .op .exponent, .lit 0x33, .op .exponent, .lit 0x32]
        (.binary .exponent (.leaf (.lit 0x32))
          (.binary .exponent (.leaf (.lit 0x33)) (.leaf (.lit 0x32)))) :=
      level_lit_binary 0x32 le_rfl (by decide) rfl
        (level_lit_binary 0x33 le_rfl (by decide) rfl (level_lit _ _ 0x32))
    exact ⟨1, _, hlevel.mono (by decide)⟩
  refine ⟨hexpr, fun h => ?_⟩
  obtain ⟨n, rest, levels, hmake, hn⟩ := h _ hexpr
  have hleft : makeTree [Token.lit (0x32 : Byte), .op .exponent, .lit 0x33, .op .exponent,
      .lit 0x32] = .ok [some (.binary .exponent (.binary .exponent (.leaf (.lit 0x32))
        (.leaf (.lit 0x33))) (.leaf (.lit 0x32))), none, none, none, none] := by
    rfl
  rw [hleft] at hmake
  obtain ⟨rfl, -⟩ : n = .binary .exponent (.binary .exponent (.leaf (.lit 0x32))
      (.leaf (.lit 0x33))) (.leaf (.lit 0x32)) ∧ _ := by
    simpa [eq_comm] using hmake
  rcases levels with _ | levels
  · exact hn
  rcases level_cases (level_of_rootLevel_le (j := 2) hn le_rfl (by decide)) with
    ⟨h0, -⟩ | ⟨k, hk, hup⟩ | ⟨h1, -⟩ | ⟨-, -, o, xs, ys, l, r, -, hts, hnode, hl, hr⟩ |
    ⟨h14, -⟩ | ⟨h15, -⟩
  · omega
  · -- below its own level the power stands in brackets
    obtain rfl : k = 1 := by omega
    obtain ⟨us, hus, -⟩ := brackets_of_rootLevel hup (by decide)
    simp at hus
  · omega
  · -- the left operand would have to stand in brackets
    obtain ⟨rfl, rfl, rfl⟩ : .exponent = o ∧
        (.binary .exponent (.leaf (.lit 0x32)) (.leaf (.lit 0x33)) : Node Byte) = l ∧
        .leaf (.lit 0x32) = r := by
      simpa using hnode
    have hweight := tokenWeight_of_level (fun us n => tokenWeight_of_grammar) hl
    have hsplit : [Token.lit (0x32 : Byte), .op .exponent, .lit 0x33] ++ .op .exponent ::
        [.lit 0x32] = xs ++ .op .exponent :: ys := hts
    obtain ⟨rfl, -⟩ := split_unique (by decide) (by decide) hsplit hweight.symm
    obtain ⟨us, hus, -⟩ := brackets_of_rootLevel hl (by decide)
    simp at hus
  · omega
  · omega

end Th8.Expr
