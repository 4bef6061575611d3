import Th8.Expr.Tree

/-!
# Expressions and accepted sequences

The operator grammar over tokens, with brackets around expressions as atoms.  What the
tree builder accepts is more: expressions and stray operators side by side, at every level
of brackets.  It is also less: no conditional operator may stand in the middle of another.
-/

namespace Th8.Expr

open Support List Option Nat

variable {α : Type}

def TokenAtom (inner : List (Token α) → Node α → Prop) (xs : List (Token α)) (n : Node α) : Prop :=
  (∃ a, xs = [.lit a] ∧ n = .leaf (.lit a)) ∨
    ∃ us, xs = .op .openBracket :: (us ++ [.op .closeBracket]) ∧ inner us n

def Grammar (s : Shape) : ℕ → List (Token α) → Node α → Prop
  | 0, _, _ => False
  | levels + 1, ts, n => Level (TokenAtom (Grammar s levels)) .op s 15 ts n

def IsExpression (ts : List (Token α)) : Prop :=
  ∃ levels n, Grammar documented levels ts n

variable {inner : List (Token α) → Node α → Prop} {xs : List (Token α)} {n : Node α}

theorem TokenAtom.imp {inner' : List (Token α) → Node α → Prop}
    (h : ∀ us n, inner us n → inner' us n) (hatom : TokenAtom inner xs n) :
    TokenAtom inner' xs n := by
  rcases hatom with hlit | ⟨us, hus, hn⟩
  · exact .inl hlit
  · exact .inr ⟨us, hus, h us n hn⟩

variable {o : Op}

theorem op_ne_bracket (ho : 0 < iPrecedence o) :
    (.op o : Token α) ≠ .op .openBracket ∧ (.op o : Token α) ≠ .op .closeBracket := by
  constructor
  · rintro ⟨⟩
    simp [iPrecedence] at ho
  · rintro ⟨⟩
    simp [iPrecedence] at ho

theorem Closes.operator (ho : 0 < iPrecedence o) {ys : List (Token α)} (hx : Closes 0 xs)
    (hy : Closes 0 ys) : Closes 0 (xs ++ .op o :: ys) :=
  hx.append (.token (op_ne_bracket ho).1 (op_ne_bracket ho).2 hy)

variable {s : Shape} {k : ℕ} {ts : List (Token α)}

theorem Level.closes (h : Level (TokenAtom inner) .op s k ts n)
    (hinner : ∀ us n, inner us n → Closes 0 us) : Closes 0 ts := by
  induction h with
  | atom h =>
    rcases h with ⟨a, rfl, -⟩ | ⟨us, rfl, hus⟩
    · exact .token (by simp) (by simp) .nil
    · exact (hinner _ _ hus).brackets
  | up _ ih => exact ih
  | unary ho _ ih =>
    have hpos := op_ne_bracket (α := α) (by rw [ho]; decide)
    exact .token hpos.1 hpos.2 ih
  | binary h2 _ ho _ _ ihl ihr => exact ihl.operator (by rw [ho]; omega) ihr
  | ternary _ _ _ ihc iht ihe =>
    exact ihc.operator (by decide) (iht.operator (by decide) ihe)
  | assign _ _ ihl ihr => exact ihl.operator (by decide) ihr

variable {levels : ℕ}

theorem Grammar.closes (h : Grammar s levels ts n) : Closes 0 ts := by
  induction levels generalizing ts n with
  | zero => exact h.elim
  | succ levels ih => exact Level.closes h fun us n => ih

theorem Level.ne_nil (h : Level (TokenAtom inner) .op s k ts n) : ts ≠ [] := by
  induction h with
  | atom h => rcases h with ⟨a, rfl, -⟩ | ⟨us, rfl, -⟩ <;> simp
  | up _ ih => exact ih
  | unary _ _ _ => simp
  | binary _ _ _ _ _ _ _ => simp
  | ternary _ _ _ _ _ _ => simp
  | assign _ _ _ _ => simp

/-! ## Phase 1 on parts -/

theorem Closes.cases_zero (h : Closes 0 ts) :
    ts = [] ∨
      (∃ t ts', ts = t :: ts' ∧ t ≠ .op .openBracket ∧ t ≠ .op .closeBracket ∧ Closes 0 ts') ∨
      ∃ us ts', ts = .op .openBracket :: (us ++ .op .closeBracket :: ts') ∧ Closes 0 us ∧
        Closes 0 ts' := by
  have hsplit : ∀ n k (ts : List (Token α)), ts.length ≤ n → Closes (k + 1) ts →
      ∃ us ts', ts = us ++ .op .closeBracket :: ts' ∧ Closes 0 us ∧ Closes k ts' := by
    intro n
    induction n with
    | zero =>
      intro k ts hlen h
      obtain rfl := length_eq_zero_iff.mp (le_zero.mp hlen)
      cases h
    | succ n ih =>
      intro k ts hlen h
      cases h with
      | token ho hc h =>
        obtain ⟨us, ts', rfl, hus, hts'⟩ := ih k _ (le_of_succ_le_succ hlen) h
        exact ⟨_ :: us, ts', rfl, .token ho hc hus, hts'⟩
      | @open_ k' ts h =>
        obtain ⟨us, ts₁, rfl, hus, hts₁⟩ := ih (k + 1) _ (le_of_succ_le_succ hlen) h
        obtain ⟨vs, ts₂, rfl, hvs, hts₂⟩ := ih k ts₁ (by simp at hlen; omega) hts₁
        refine ⟨.op .openBracket :: (us ++ .op .closeBracket :: vs), ts₂, by simp, ?_, hts₂⟩
        exact .open_ (hus.append (.close hvs))
      | close h => exact ⟨[], _, rfl, .nil, h⟩
  cases h with
  | nil => exact .inl rfl
  | token ho hc h => exact .inr (.inl ⟨_, _, rfl, ho, hc, h⟩)
  | open_ h =>
    obtain ⟨us, ts', rfl, hus, hts'⟩ := hsplit _ 0 _ le_rfl h
    exact .inr (.inr ⟨us, ts', rfl, hus, hts'⟩)

variable {tree : List (Token α) → Option (List (Node α))}

theorem items_append (hxs : Closes 0 xs) (ys : List (Token α)) :
    items tree (xs ++ ys) = (items tree xs).bind fun a => (items tree ys).map (a ++ ·) := by
  induction hn : xs.length using Nat.strong_induction_on generalizing xs with
  | _ n ih =>
    rcases hxs.cases_zero with rfl | ⟨t, xs, rfl, ho, -, hxs'⟩ | ⟨us, xs, rfl, hus, hxs'⟩
    · have hnil : items tree ([] : List (Token α)) = some [] := rfl
      rw [hnil, nil_append, bind_some]
      cases items tree ys <;> rfl
    · rw [cons_append, items_token ho, items_token ho, ih xs.length (by rw [← hn]; simp) hxs' rfl]
      cases items tree xs with
      | none => rfl
      | some a => cases items tree ys <;> rfl
    · rw [cons_append, append_assoc, cons_append, items_brackets hus,
        items_brackets hus, ih xs.length (by rw [← hn]; simp; omega) hxs' rfl]
      cases tree us with
      | none => rfl
      | some sub =>
        cases items tree xs with
        | none => rfl
        | some a =>
          cases items tree ys with
          | none => rfl
          | some b => simp

variable {its : List (Node α)}

theorem items_operator (ho : 0 < iPrecedence o) (hxs : Closes 0 xs) {ys : List (Token α)} :
    items tree (xs ++ .op o :: ys) = some its ↔
      ∃ a b, items tree xs = some a ∧ items tree ys = some b ∧ its = a ++ opNode o :: b := by
  rw [items_append hxs, items_token (op_ne_bracket ho).1]
  cases items tree xs with
  | none => simp
  | some a =>
    cases items tree ys with
    | none => simp
    | some b => simp [opNode, eq_comm]

theorem items_lit (a : α) :
    items tree [.lit a] = some [.leaf (.lit a)] := rfl

theorem items_bracketed {us : List (Token α)} (hus : Closes 0 us) :
    items tree (.op .openBracket :: (us ++ [.op .closeBracket])) = tree us := by
  rw [items_brackets hus]
  have hnil : items tree ([] : List (Token α)) = some [] := rfl
  rw [hnil]
  cases tree us <;> simp

theorem Grammar.isTerm (h : Grammar s levels ts n) : Expr.isTerm n = true := by
  induction levels generalizing ts n with
  | zero => exact h.elim
  | succ levels ih =>
    refine Level.isTerm h fun xs n hatom => ?_
    rcases hatom with ⟨a, -, rfl⟩ | ⟨us, -, hus⟩
    · rfl
    · exact ih hus

theorem items_of_level
    (hinner : ∀ us n, Grammar scanned levels us n → treeNodes levels us = some [(n : Node α)])
    (h : Level (TokenAtom (Grammar scanned levels)) .op scanned k ts n) :
    ∃ its, items (treeNodes levels) ts = some its ∧ ScanLevel k its n := by
  have hcloses {k : ℕ} {xs : List (Token α)} {n : Node α}
      (h : Level (TokenAtom (Grammar scanned levels)) .op scanned k xs n) : Closes 0 xs :=
    Level.closes h fun us n => Grammar.closes
  induction h with
  | @atom xs n h =>
    rcases h with ⟨a, rfl, rfl⟩ | ⟨us, rfl, hus⟩
    · exact ⟨_, items_lit a, .atom ⟨rfl, rfl⟩⟩
    · exact ⟨[n], by rw [items_bracketed hus.closes, hinner us n hus], .atom ⟨rfl, hus.isTerm⟩⟩
  | up _ ih =>
    obtain ⟨its, hits, hscan⟩ := ih
    exact ⟨its, hits, hscan.up⟩
  | @unary o xs n ho hn ih =>
    obtain ⟨its, hits, hscan⟩ := ih
    refine ⟨opNode o :: its, ?_, .unary ho hscan⟩
    rw [items_token (op_ne_bracket (by rw [ho]; decide)).1, hits]
    rfl
  | @binary p o xs ys l r h2 h13 ho hl hr ihl ihr =>
    obtain ⟨a, ha, hscanl⟩ := ihl
    obtain ⟨b, hb, hscanr⟩ := ihr
    exact ⟨_, (items_operator (by rw [ho]; omega) (hcloses hl)).mpr ⟨a, b, ha, hb, rfl⟩,
      .binary h2 h13 ho hscanl hscanr⟩
  | @ternary xs ys zs c t e hc ht he ihc iht ihe =>
    obtain ⟨a, ha, hscanc⟩ := ihc
    obtain ⟨b, hb, hscant⟩ := iht
    obtain ⟨d, hd, hscane⟩ := ihe
    have hbranches := (items_operator (o := .ternaryC) (by decide) (hcloses ht)).mpr
      ⟨b, d, hb, hd, rfl⟩
    exact ⟨_, (items_operator (by decide) (hcloses hc)).mpr ⟨a, _, ha, hbranches, rfl⟩,
      .ternary hscanc hscant hscane⟩
  | @assign xs ys l r hl hr ihl ihr =>
    obtain ⟨a, ha, hscanl⟩ := ihl
    obtain ⟨b, hb, hscanr⟩ := ihr
    exact ⟨_, (items_operator (by decide) (hcloses hl)).mpr ⟨a, b, ha, hb, rfl⟩,
      .assign hscanl hscanr⟩

theorem treeNodes_of_grammar (h : Grammar scanned levels ts n) :
    treeNodes levels ts = some [n] := by
  induction levels generalizing ts n with
  | zero => exact h.elim
  | succ levels ih =>
    obtain ⟨its, hits, hscan⟩ := items_of_level (fun us n hus => ih hus) h
    exact treeNodes_eq_some_iff.mpr ⟨Level.ne_nil h, its, hits, pieces_single.mpr (.inl hscan)⟩

/-! ## Counting terms and operators -/

def termExcess : Node α → ℤ
  | .leaf (.op o) => if iPrecedence o ≤ 1 then 0 else -1
  | _ => 1

/-- The `?` less the `:`. -/
def ternaryExcess : Node α → ℤ
  | .leaf (.op .ternaryQ) => 1
  | .leaf (.op .ternaryC) => -1
  | _ => 0

def bracketCount : Node α → ℤ
  | .leaf (.op o) => if iPrecedence o ≤ 0 then 1 else 0
  | _ => 0

def counts (nodes : List (Node α)) : ℤ × ℤ × ℤ :=
  ((nodes.map termExcess).sum, (nodes.map ternaryExcess).sum, (nodes.map bracketCount).sum)

theorem counts_append (a b : List (Node α)) : counts (a ++ b) = counts a + counts b := by
  simp [counts]

theorem counts_cons (n : Node α) (b : List (Node α)) :
    counts (n :: b) = counts [n] + counts b := counts_append [n] b

theorem counts_term (hn : isTerm n = true) : counts [n] = (1, 0, 0) := by
  rcases n with (a | o) | _ | _
  · rfl
  · cases hn
  · rfl
  · rfl

theorem counts_unary (ho : iPrecedence o = 1) : counts [(opNode o : Node α)] = (0, 0, 0) := by
  revert ho
  cases o <;> simp [iPrecedence, counts, opNode, termExcess, ternaryExcess, bracketCount]

theorem counts_binary (h2 : 2 ≤ iPrecedence o) (h13 : iPrecedence o ≤ 13) :
    counts [(opNode o : Node α)] = (-1, 0, 0) := by
  revert h2 h13
  cases o <;> simp [iPrecedence, counts, opNode, termExcess, ternaryExcess, bracketCount]

variable {nodes : List (Node α)}

theorem counts_of_level (h : Level NodeAtom opNode s k nodes n) : counts nodes = (1, 0, 0) := by
  induction h with
  | atom h =>
    obtain ⟨rfl, hn⟩ := h
    exact counts_term hn
  | up _ ih => exact ih
  | unary ho _ ih =>
    rw [counts_cons, counts_unary ho, ih]
    rfl
  | binary h2 h13 ho _ _ ihl ihr =>
    rw [counts_append, counts_cons, counts_binary (by rw [ho]; omega) (by rw [ho]; omega), ihl, ihr]
    rfl
  | ternary _ _ _ ihc iht ihe =>
    rw [counts_append, counts_cons, counts_append, counts_cons (opNode .ternaryC), ihc, iht, ihe]
    rfl
  | assign _ _ ihl ihr =>
    rw [counts_append, counts_cons, ihl, ihr]
    rfl

variable {ns : List (Node α)}

theorem counts_of_pieces (h : Pieces FinalPiece nodes ns) :
    ∃ terms colons brackets : ℕ, ns.length = terms + colons + brackets ∧
      counts nodes = ((terms : ℤ) - colons, -(colons : ℤ), (brackets : ℤ)) := by
  induction h with
  | nil => exact ⟨0, 0, 0, rfl, rfl⟩
  | @cons xs n L M hn _ ih =>
    obtain ⟨terms, colons, brackets, hlen, hcounts⟩ := ih
    have hopen : counts [(opNode .openBracket : Node α)] = (0, 0, 1) := rfl
    have hclose : counts [(opNode .closeBracket : Node α)] = (0, 0, 1) := rfl
    have hcolon : counts [(opNode .ternaryC : Node α)] = (-1, -1, 0) := rfl
    rw [length_cons, hlen, counts_append, hcounts]
    rcases hn with h | ⟨rfl, rfl | rfl | rfl⟩
    · refine ⟨terms + 1, colons, brackets, by omega, ?_⟩
      rw [counts_of_level h]
      simp only [Prod.mk_add_mk, Prod.mk.injEq, cast_add, cast_one]
      omega
    · refine ⟨terms, colons, brackets + 1, by omega, ?_⟩
      rw [hopen]
      simp only [Prod.mk_add_mk, Prod.mk.injEq, cast_add, cast_one]
      omega
    · refine ⟨terms, colons, brackets + 1, by omega, ?_⟩
      rw [hclose]
      simp only [Prod.mk_add_mk, Prod.mk.injEq, cast_add, cast_one]
      omega
    · refine ⟨terms, colons + 1, brackets, by omega, ?_⟩
      rw [hcolon]
      simp only [Prod.mk_add_mk, Prod.mk.injEq, cast_add, cast_one]
      omega

theorem scanLevel_of_counts (h : Pieces FinalPiece nodes ns) (hcounts : counts nodes = (1, 0, 0)) :
    ∃ n, ns = [n] ∧ ScanLevel 15 nodes n := by
  obtain ⟨terms, colons, brackets, hlen, hsum⟩ := counts_of_pieces h
  rw [hcounts] at hsum
  simp only [Prod.mk.injEq] at hsum
  obtain ⟨n, rfl⟩ := length_eq_one_iff.mp (show ns.length = 1 by omega)
  refine ⟨n, rfl, ?_⟩
  rcases pieces_single.mp h with h | ⟨rfl, rfl | rfl | rfl⟩
  · exact h
  all_goals
    simp [counts, opNode, termExcess, ternaryExcess, bracketCount, iPrecedence] at hcounts

/-! ## Accepted expressions -/

def TokenPiece (levels : ℕ) (xs : List (Token α)) (n : Node α) : Prop :=
  TokenAtom (Grammar scanned levels) xs n ∨ ∃ o, 0 < iPrecedence o ∧ xs = [.op o] ∧ n = opNode o

theorem level_of_pieces (h : ScanLevel k its n) (hpieces : Pieces (TokenPiece levels) ts its) :
    Level (TokenAtom (Grammar scanned levels)) .op scanned k ts n := by
  have hop {o : Op} {xs : List (Token α)} (h : TokenPiece levels xs (opNode o)) : xs = [.op o] := by
    rcases h with (⟨a, -, ⟨⟩⟩ | ⟨us, -, hus⟩) | ⟨o', -, rfl, ho⟩
    · exact absurd hus.isTerm (by simp [opNode, isTerm])
    · cases ho
      rfl
  induction h generalizing ts with
  | atom h =>
    obtain ⟨rfl, hterm⟩ := h
    rcases pieces_single.mp hpieces with h | ⟨o, -, -, rfl⟩
    · exact .atom h
    · cases hterm
  | up _ ih => exact (ih hpieces).up
  | unary ho _ ih =>
    obtain ⟨xs, ys, rfl, hx, hy⟩ := pieces_cons_right.mp hpieces
    obtain rfl := hop hx
    exact .unary ho (ih hy)
  | binary h2 h13 ho _ _ ihl ihr =>
    obtain ⟨xs, ys, rfl, hx, hy⟩ := pieces_append_right.mp hpieces
    obtain ⟨zs, ys, rfl, hz, hr⟩ := pieces_cons_right.mp hy
    obtain rfl := hop hz
    exact .binary h2 h13 ho (ihl hx) (ihr hr)
  | ternary _ _ _ ihc iht ihe =>
    obtain ⟨xs, ys, rfl, hx, hy⟩ := pieces_append_right.mp hpieces
    obtain ⟨qs, ys, rfl, hq, hbranches⟩ := pieces_cons_right.mp hy
    obtain rfl := hop hq
    obtain ⟨us, ys, rfl, hu, helse⟩ := pieces_append_right.mp hbranches
    obtain ⟨cs, ys, rfl, hcolon, hv⟩ := pieces_cons_right.mp helse
    obtain rfl := hop hcolon
    exact .ternary (ihc hx) (iht hu) (ihe hv)
  | assign _ _ ihl ihr =>
    obtain ⟨xs, ys, rfl, hx, hy⟩ := pieces_append_right.mp hpieces
    obtain ⟨zs, ys, rfl, hz, hr⟩ := pieces_cons_right.mp hy
    obtain rfl := hop hz
    exact .assign (ihl hx) (ihr hr)

theorem level_items (hcloses : ∀ us n, inner us n → Closes 0 us)
    (hinner : ∀ us n ns, inner us n → treeNodes levels us = some ns → ∃ n', ns = [n'] ∧ Grammar
      scanned levels us n') (h : Level (TokenAtom inner) .op s k ts n)
    (hits : items (treeNodes levels) ts = some its) :
    (∃ n', Level NodeAtom opNode s k its n') ∧ Pieces (TokenPiece levels) ts its := by
  induction h generalizing its with
  | atom h =>
    rcases h with ⟨a, rfl, -⟩ | ⟨us, rfl, hus⟩
    · rw [items_lit] at hits
      cases hits
      exact ⟨⟨_, .atom ⟨rfl, rfl⟩⟩, Pieces.single (.inl (.inl ⟨a, rfl, rfl⟩))⟩
    · rw [items_bracketed (hcloses _ _ hus)] at hits
      obtain ⟨n', rfl, hn'⟩ := hinner _ _ _ hus hits
      exact ⟨⟨n', .atom ⟨rfl, hn'.isTerm⟩⟩, Pieces.single (.inl (.inr ⟨us, rfl, hn'⟩))⟩
  | up _ ih =>
    obtain ⟨⟨n', hn'⟩, hpieces⟩ := ih hits
    exact ⟨⟨n', hn'.up⟩, hpieces⟩
  | @unary o xs n ho _ ih =>
    have hpos : 0 < iPrecedence o := by rw [ho]; decide
    rw [items_token (op_ne_bracket hpos).1] at hits
    obtain ⟨a, ha, rfl⟩ := map_eq_some_iff.mp hits
    obtain ⟨⟨n', hn'⟩, hpieces⟩ := ih ha
    exact ⟨⟨_, .unary ho hn'⟩, Pieces.cons (.inr ⟨o, hpos, rfl, rfl⟩) hpieces⟩
  | @binary p o xs ys l r h2 h13 ho hl _ ihl ihr =>
    have hpos : 0 < iPrecedence o := by rw [ho]; omega
    obtain ⟨a, b, ha, hb, rfl⟩ := (items_operator hpos (hl.closes hcloses)).mp hits
    obtain ⟨⟨l', hl'⟩, hpl⟩ := ihl ha
    obtain ⟨⟨r', hr'⟩, hpr⟩ := ihr hb
    exact ⟨⟨_, .binary h2 h13 ho hl' hr'⟩, hpl.append (Pieces.cons (.inr ⟨o, hpos, rfl, rfl⟩) hpr)⟩
  | @ternary xs ys zs c t e hc ht _ ihc iht ihe =>
    obtain ⟨a, b, ha, hb, rfl⟩ := (items_operator (by decide) (hc.closes hcloses)).mp hits
    obtain ⟨b, d, hb', hd, rfl⟩ := (items_operator (by decide) (ht.closes hcloses)).mp hb
    obtain ⟨⟨c', hc'⟩, hpc⟩ := ihc ha
    obtain ⟨⟨t', ht'⟩, hpt⟩ := iht hb'
    obtain ⟨⟨e', he'⟩, hpe⟩ := ihe hd
    exact ⟨⟨_, .ternary hc' ht' he'⟩,
      hpc.append (Pieces.cons (.inr ⟨_, by decide, rfl, rfl⟩)
        (hpt.append (Pieces.cons (.inr ⟨_, by decide, rfl, rfl⟩) hpe)))⟩
  | @assign xs ys l r hl _ ihl ihr =>
    obtain ⟨a, b, ha, hb, rfl⟩ := (items_operator (by decide) (hl.closes hcloses)).mp hits
    obtain ⟨⟨l', hl'⟩, hpl⟩ := ihl ha
    obtain ⟨⟨r', hr'⟩, hpr⟩ := ihr hb
    exact ⟨⟨_, .assign hl' hr'⟩, hpl.append (Pieces.cons (.inr ⟨_, by decide, rfl, rfl⟩) hpr)⟩

theorem grammar_scanned_of_accepted {levels' : ℕ} (h : Grammar s levels ts n)
    (hns : treeNodes levels' ts = some ns) :
    ∃ n', ns = [n'] ∧ Grammar scanned levels' ts n' := by
  induction levels generalizing levels' ts n ns with
  | zero => exact h.elim
  | succ levels ih =>
    rcases levels' with _ | levels'
    · cases hns
    · obtain ⟨-, its, hits, hpieces⟩ := treeNodes_eq_some_iff.mp hns
      obtain ⟨⟨m, hm⟩, htokens⟩ := level_items (fun us n => Grammar.closes)
        (fun us n ns hus => ih hus) h hits
      obtain ⟨n', rfl, hn'⟩ := scanLevel_of_counts hpieces (counts_of_level hm)
      exact ⟨n', rfl, level_of_pieces hn' htokens⟩

/-! ## Grouping from either side -/

section Regroup

variable {κ : Type} {Atom Atom' : List κ → Node α → Prop} {tok : Op → κ}

variable {k : ℕ} {xs ys : List κ}

theorem power_snoc {l r : Node α} {o : Op} (h : Level Atom tok withoutMiddle k xs l) (hk : k = 2)
    (ho : iPrecedence o = 2) (hr : Level Atom tok withoutMiddle 1 ys r) :
    ∃ n, Level Atom tok withoutMiddle 2 (xs ++ tok o :: ys) n := by
  induction h with
  | atom _ => cases hk
  | up h _ =>
    cases hk
    exact ⟨_, .binary le_rfl (by norm_num) (by exact_mod_cast ho) h hr.up⟩
  | unary _ _ _ => cases hk
  | binary h2 h13 ho' hl _ _ ihr =>
    subst hk
    obtain ⟨n, hn⟩ := ihr rfl
    rw [append_assoc, cons_append]
    exact ⟨_, .binary le_rfl h13 ho' hl hn⟩
  | ternary _ _ _ _ _ _ => cases hk
  | assign _ _ _ _ => cases hk

theorem power_cons {l r : Node α} {o : Op} (hl : Level Atom tok scanned 1 xs l)
    (ho : iPrecedence o = 2) (h : Level Atom tok scanned k ys r) (hk : k = 2) :
    ∃ n, Level Atom tok scanned 2 (xs ++ tok o :: ys) n := by
  induction h with
  | atom _ => cases hk
  | up h _ =>
    cases hk
    exact ⟨_, .binary le_rfl (by norm_num) (by exact_mod_cast ho) hl.up h⟩
  | unary _ _ _ => cases hk
  | binary h2 h13 ho' _ hr ihl _ =>
    subst hk
    obtain ⟨n, hn⟩ := ihl rfl
    rw [← cons_append, ← append_assoc]
    exact ⟨_, .binary le_rfl h13 ho' hn hr⟩
  | ternary _ _ _ _ _ _ => cases hk
  | assign _ _ _ _ => cases hk

theorem ternary_snoc {zs : List κ} {c t e : Node α} (h : Level Atom tok withoutMiddle k xs c)
    (hk : k = 14) (ht : Level Atom tok withoutMiddle 13 ys t)
    (he : Level Atom tok withoutMiddle 13 zs e) :
    ∃ n, Level Atom tok withoutMiddle 14
      (xs ++ tok .ternaryQ :: (ys ++ tok .ternaryC :: zs)) n := by
  induction h with
  | atom _ => cases hk
  | up h _ =>
    cases hk
    exact ⟨_, .ternary h ht he.up⟩
  | unary _ _ _ => cases hk
  | binary h2 h13 _ _ _ _ _ =>
    omega
  | ternary hc' ht' _ _ _ ihe =>
    obtain ⟨n, hn⟩ := ihe rfl
    rw [append_assoc, cons_append, append_assoc, cons_append]
    exact ⟨_, .ternary hc' ht' hn⟩
  | assign _ _ _ _ => cases hk

theorem ternary_cons {zs : List κ} {c t e : Node α} (hc : Level Atom tok scanned 13 xs c)
    (ht : Level Atom tok scanned 13 ys t) (h : Level Atom tok scanned k zs e) (hk : k = 14) :
    ∃ n, Level Atom tok scanned 14 (xs ++ tok .ternaryQ :: (ys ++ tok .ternaryC :: zs)) n := by
  induction h with
  | atom _ => cases hk
  | up h _ =>
    cases hk
    exact ⟨_, .ternary hc.up ht h⟩
  | unary _ _ _ => cases hk
  | binary h2 h13 _ _ _ _ _ =>
    omega
  | @ternary as bs ds _ _ _ _ ht' he' ihc _ _ =>
    obtain ⟨n, hn⟩ := ihc rfl
    have heq : xs ++ tok .ternaryQ :: (ys ++ tok .ternaryC ::
        (as ++ tok .ternaryQ :: (bs ++ tok .ternaryC :: ds))) =
        (xs ++ tok .ternaryQ :: (ys ++ tok .ternaryC :: as)) ++
          tok .ternaryQ :: (bs ++ tok .ternaryC :: ds) := by
      simp
    rw [heq]
    exact ⟨_, .ternary hn ht' he'⟩
  | assign _ _ _ _ => cases hk

variable {n : Node α}

theorem Level.regroup {s s' : Shape} (h : Level Atom tok s k xs n)
    (hatom : ∀ xs n, Atom xs n → ∃ n', Atom' xs n') (hbinary : ∀ {p : ℕ} {o : Op} {xs ys : List κ}
      {l r : Node α}, 2 ≤ p → p ≤ 13 → iPrecedence o = p → Level Atom' tok s' (s.left p) xs l →
      Level Atom' tok s' (s.right p) ys r → ∃ n', Level Atom' tok s' p (xs ++ tok o :: ys) n')
    (hternary : ∀ {xs ys zs : List κ} {c t e : Node α}, Level Atom' tok s' s.cond xs c → Level Atom'
      tok s' s.mid ys t → Level Atom' tok s' s.els zs e → ∃ n', Level Atom' tok s' 14 (xs ++ tok
      .ternaryQ :: (ys ++ tok .ternaryC :: zs)) n') :
    ∃ n', Level Atom' tok s' k xs n' := by
  induction h with
  | atom h =>
    obtain ⟨n', hn'⟩ := hatom _ _ h
    exact ⟨n', .atom hn'⟩
  | up _ ih =>
    obtain ⟨n', hn'⟩ := ih
    exact ⟨n', hn'.up⟩
  | unary ho _ ih =>
    obtain ⟨n', hn'⟩ := ih
    exact ⟨_, .unary ho hn'⟩
  | binary h2 h13 ho _ _ ihl ihr =>
    obtain ⟨l, hl⟩ := ihl
    obtain ⟨r, hr⟩ := ihr
    exact hbinary h2 h13 ho hl hr
  | ternary _ _ _ ihc iht ihe =>
    obtain ⟨c, hc⟩ := ihc
    obtain ⟨t, ht⟩ := iht
    obtain ⟨e, he⟩ := ihe
    exact hternary hc ht he
  | assign _ _ ihl ihr =>
    obtain ⟨l, hl⟩ := ihl
    obtain ⟨r, hr⟩ := ihr
    exact ⟨_, .assign hl hr⟩

theorem regroup_right (h : Level Atom tok scanned k xs n)
    (hatom : ∀ xs n, Atom xs n → ∃ n', Atom' xs n') :
    ∃ n', Level Atom' tok withoutMiddle k xs n' := by
  refine h.regroup hatom ?_ fun hc ht he => ternary_snoc hc rfl ht he
  intro p o _ _ l r h2 h13 ho hl hr
  by_cases hp : p = 2
  · subst hp
    exact power_snoc hl rfl (by exact_mod_cast ho) hr
  · have hleft : withoutMiddle.left p = p := if_neg hp
    have hright : withoutMiddle.right p = p - 1 := if_neg hp
    exact ⟨.binary o l r, .binary h2 h13 ho (by rw [hleft]; exact hl) (by rw [hright]; exact hr)⟩

theorem regroup_left (h : Level Atom tok withoutMiddle k xs n)
    (hatom : ∀ xs n, Atom xs n → ∃ n', Atom' xs n') :
    ∃ n', Level Atom' tok scanned k xs n' := by
  refine h.regroup hatom ?_ fun hc ht he => ternary_cons hc ht he rfl
  intro p o _ _ l r h2 h13 ho hl hr
  by_cases hp : p = 2
  · subst hp
    exact power_cons hl (by exact_mod_cast ho) hr rfl
  · have hleft : withoutMiddle.left p = p := if_neg hp
    have hright : withoutMiddle.right p = p - 1 := if_neg hp
    rw [hleft] at hl
    rw [hright] at hr
    exact ⟨.binary o l r, .binary h2 h13 ho hl hr⟩

end Regroup

theorem tokenAtom_exists {inner' : List (Token α) → Node α → Prop}
    (h : ∀ us n, inner us n → ∃ n', inner' us n') (xs : List (Token α)) (n : Node α)
    (hatom : TokenAtom inner xs n) : ∃ n', TokenAtom inner' xs n' := by
  rcases hatom with hlit | ⟨us, hus, hn⟩
  · exact ⟨n, .inl hlit⟩
  · obtain ⟨n', hn'⟩ := h us n hn
    exact ⟨n', .inr ⟨us, hus, hn'⟩⟩

theorem grammar_scanned_iff :
    (∃ n, Grammar scanned levels ts n) ↔ ∃ n, Grammar withoutMiddle levels ts n := by
  induction levels generalizing ts with
  | zero => exact ⟨fun ⟨_, h⟩ => h.elim, fun ⟨_, h⟩ => h.elim⟩
  | succ levels ih =>
    constructor
    · rintro ⟨n, h⟩
      exact regroup_right h (tokenAtom_exists fun us n hus => ih.mp ⟨n, hus⟩)
    · rintro ⟨n, h⟩
      exact regroup_left h (tokenAtom_exists fun us n hus => ih.mpr ⟨n, hus⟩)

theorem Grammar.weaken {s' : Shape} (h : Grammar s levels ts n) (hleft : ∀ p, s.left p ≤ s'.left p)
    (hright : ∀ p, s.right p ≤ s'.right p) (hcond : s.cond ≤ s'.cond) (hmid : s.mid ≤ s'.mid)
    (hels : s.els ≤ s'.els) : Grammar s' levels ts n := by
  induction levels generalizing ts n with
  | zero => exact h.elim
  | succ levels ih =>
    exact Level.weaken h (fun xs n => TokenAtom.imp fun us n => ih) hleft hright hcond hmid hels

theorem Grammar.documented (h : Grammar withoutMiddle levels ts n) :
    Grammar Expr.documented levels ts n :=
  h.weaken (fun _ => le_rfl) (fun _ => le_rfl) le_rfl (by decide) le_rfl

inductive Spread (inner : List (Token α) → List (Node α) → Prop) :
    List (Token α) → List (Node α) → Prop
  | nil : Spread inner [] []
  | token {t : Token α} {ts : List (Token α)} {its : List (Node α)} :
      t ≠ .op .openBracket → Spread inner ts its → Spread inner (t :: ts) (.leaf t :: its)
  | brackets {us ts : List (Token α)} {ns its : List (Node α)} : Closes 0 us →
      inner us ns → Spread inner ts its →
      Spread inner (.op .openBracket :: (us ++ .op .closeBracket :: ts)) (ns ++ its)

/-- One or more pieces side by side: expressions, stray `:` and stray close brackets.
Brackets stand for the pieces in them, which need not be one expression either. -/
def Juxtaposition : ℕ → List (Token α) → List (Node α) → Prop
  | 0, _, _ => False
  | levels + 1, ts, ns =>
    ts ≠ [] ∧ ∃ its, Spread (Juxtaposition levels) ts its ∧ Pieces FinalPiece its ns

theorem items_eq_some_iff :
    items tree ts = some its ↔ Spread (fun us ns => tree us = some ns) ts its := by
  constructor
  · intro h
    induction hn : ts.length using Nat.strong_induction_on generalizing ts its with
    | _ n ih =>
      rcases ts with _ | ⟨t, ts⟩
      · cases h
        exact .nil
      by_cases ho : t = .op .openBracket
      · subst ho
        cases hmatch : matchBracket 1 ts with
        | none =>
          rw [items, length_cons, bracketNodes, hmatch] at h
          cases h
        | some p =>
          obtain ⟨us, rest⟩ := p
          obtain ⟨rfl, hus⟩ := closes_of_matchBracket hmatch
          rw [items_brackets hus] at h
          obtain ⟨sub, hsub, h⟩ := bind_eq_some_iff.mp h
          obtain ⟨r, hr, rfl⟩ := map_eq_some_iff.mp h
          exact .brackets hus hsub (ih rest.length (by rw [← hn]; simp; omega) hr rfl)
      · rw [items_token ho] at h
        obtain ⟨r, hr, rfl⟩ := map_eq_some_iff.mp h
        exact .token ho (ih ts.length (by rw [← hn]; simp) hr rfl)
  · intro h
    induction h with
    | nil => rfl
    | token ho _ ih => rw [items_token ho, ih]; rfl
    | brackets hus hsub _ ih => rw [items_brackets hus, hsub, ih]; rfl

theorem treeNodes_eq_some_iff_juxtaposition :
    treeNodes levels ts = some ns ↔ Juxtaposition levels ts ns := by
  induction levels generalizing ts ns with
  | zero => exact iff_of_false (by simp [treeNodes]) id
  | succ levels ih =>
    rw [treeNodes_eq_some_iff, Juxtaposition]
    simp only [items_eq_some_iff, ih]

/-- `th8ExprMakeTree` returns `TH8_OK`. -/
def Accepts (ts : List (Token α)) : Prop := ∃ slots, makeTree ts = .ok slots

/-- `th8ExprEvalOne` after `th8ExprParse`, where what is evaluated is the first slot. -/
def exprEvalOne (zExpr : Bytes) (eval : Node α → Except Failure TString)
    (ts : List (Token α)) : Except Failure TString :=
  let syntaxError := Failure.message "syntax error in expression: \"" zExpr
  if ts = [] then .error syntaxError
  else
    match makeTree ts with
    | .error (.static z) => .error (.static z)
    | .error _ => .error syntaxError
    | .ok (some root :: _) => eval root
    | .ok _ => .error syntaxError

def AcceptsExpressions (ts : List (Token α)) : Prop :=
  (Accepts ts ↔ IsExpression ts) ∧
    (¬ IsExpression ts → ∀ zExpr eval, ∃ e, exprEvalOne zExpr eval ts = .error e)

theorem accepts_iff : Accepts ts ↔ ∃ ns, Juxtaposition (mxExprDepth + 1) ts ns := by
  have hsame := makeTreeWithin_sameTrees (α := α) (mxExprDepth + 1)
  simp only [← treeNodes_eq_some_iff_juxtaposition]
  constructor
  · rintro ⟨slots, h⟩
    exact ⟨_, hsame.ok_iff.mpr ⟨slots, h, rfl⟩⟩
  · rintro ⟨ns, h⟩
    obtain ⟨slots, hslots, -⟩ := hsame.ok_iff.mp h
    exact ⟨slots, hslots⟩

theorem accepts_expression_iff :
    IsExpression ts ∧ Accepts ts ↔ ∃ n, Grammar withoutMiddle (mxExprDepth + 1) ts n := by
  rw [accepts_iff, ← grammar_scanned_iff]
  simp only [← treeNodes_eq_some_iff_juxtaposition]
  constructor
  · rintro ⟨⟨levels, n, h⟩, ns, hns⟩
    obtain ⟨n', -, hn'⟩ := grammar_scanned_of_accepted h hns
    exact ⟨n', hn'⟩
  · rintro ⟨n, h⟩
    obtain ⟨n', hn'⟩ := grammar_scanned_iff.mp ⟨n, h⟩
    exact ⟨⟨_, n', hn'.documented⟩, _, treeNodes_of_grammar h⟩

theorem exprEvalOne_error (h : ¬ Accepts ts) (zExpr : Bytes)
    (eval : Node α → Except Failure TString) : ∃ e, exprEvalOne zExpr eval ts = .error e := by
  unfold exprEvalOne
  split_ifs
  · exact ⟨_, rfl⟩
  · cases hmake : makeTree ts with
    | ok slots => exact absurd ⟨slots, hmake⟩ h
    | error e => cases e <;> exact ⟨_, rfl⟩

/-- Acceptance is that of the grammar exactly on the expressions without a conditional
operator in the middle of another and with no more levels of brackets than the limit, and
on the sequences that are neither expressions nor juxtapositions. -/
theorem acceptsExpressions_iff (ts : List (Token α)) :
    AcceptsExpressions ts ↔
      (∃ n, Grammar withoutMiddle (mxExprDepth + 1) ts n) ∨
        (¬ IsExpression ts ∧ ¬ ∃ ns, Juxtaposition (mxExprDepth + 1) ts ns) := by
  rw [← accepts_expression_iff, ← accepts_iff]
  constructor
  · rintro ⟨hiff, -⟩
    by_cases h : IsExpression ts
    · exact .inl ⟨h, hiff.mpr h⟩
    · exact .inr ⟨h, fun haccepts => h (hiff.mp haccepts)⟩
  · rintro (⟨hexpr, haccepts⟩ | ⟨hexpr, haccepts⟩)
    · exact ⟨iff_of_true haccepts hexpr, fun h => absurd hexpr h⟩
    · exact ⟨iff_of_false haccepts hexpr, fun _ => exprEvalOne_error haccepts⟩

/-- Two operands side by side are accepted, and the first one is the value. -/
theorem acceptsExpressions_leftover :
    exprEvalOne [0x31, 0x20, 0x32] (fun root => match root with
          | .leaf (.lit a) => .ok (TString.plain [a])
          | _ => .error .silent)
        [.lit 0x31, .lit 0x32] = .ok (TString.plain [0x31]) ∧
      ¬ ∀ ts : List (Token Byte), AcceptsExpressions ts := by
  refine ⟨rfl, fun h => ?_⟩
  have hmake : makeTree [Token.lit (0x31 : Byte), .lit 0x32] =
      .ok [some (.leaf (.lit 0x31)), some (.leaf (.lit 0x32))] := rfl
  obtain ⟨levels, n, hn⟩ := (h [.lit 0x31, .lit 0x32]).1.mp ⟨_, hmake⟩
  have hnodes := (makeTreeWithin_sameTrees (mxExprDepth + 1)).ok_iff.mpr ⟨_, hmake, rfl⟩
  obtain ⟨n', hn', -⟩ := grammar_scanned_of_accepted hn hnodes
  cases hn'

end Th8.Expr
