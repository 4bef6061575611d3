import Th8.Expr.Phases

/-!
# The operator grammar

Expressions by precedence, over atoms that are left open.  How the operators that may
group either way do group is a parameter.  The phases of the tree builder cut a list of
nodes into such expressions, with every operator but assignment grouped from the left,
and into the operators that no phase binds.
-/

namespace Th8.Expr

open Support List Option

variable {α κ : Type}

/-! ## The grammar -/

/-- The levels that operands come from: those of the binary operators of a precedence, and
the three of the conditional operator. -/
structure Shape where
  left : ℕ → ℕ
  right : ℕ → ℕ
  cond : ℕ
  mid : ℕ
  els : ℕ

/-- The grouping that the comments describe: exponentiation and the conditional operator
group from the right, and a conditional operator may stand in the middle of another. -/
def documented : Shape where
  left p := if p = 2 then 1 else p
  right p := if p = 2 then 2 else p - 1
  cond := 13
  mid := 14
  els := 14

def scanned : Shape where
  left p := p
  right p := p - 1
  cond := 14
  mid := 13
  els := 13

def withoutMiddle : Shape := { documented with mid := 13 }

/-- No operand of exponentiation is an exponentiation, and none of a conditional operator
is a conditional operator. -/
def ungrouped : Shape where
  left p := if p = 2 then 1 else p
  right p := p - 1
  cond := 13
  mid := 13
  els := 13

/-- Expressions of a level over atoms, with their trees.  Level 0 has the atoms, level 1
the unary operators, and each further level the operators of one precedence. -/
inductive Level (Atom : List κ → Node α → Prop) (tok : Op → κ) (s : Shape) :
    ℕ → List κ → Node α → Prop
  | atom {xs : List κ} {n : Node α} : Atom xs n → Level Atom tok s 0 xs n
  | up {k : ℕ} {xs : List κ} {n : Node α} : Level Atom tok s k xs n → Level Atom tok s (k + 1) xs n
  | unary {o : Op} {xs : List κ} {n : Node α} : iPrecedence o = 1 →
      Level Atom tok s 1 xs n → Level Atom tok s 1 (tok o :: xs) (.unary o n)
  | binary {p : ℕ} {o : Op} {xs ys : List κ} {l r : Node α} : 2 ≤ p → p ≤ 13 →
      iPrecedence o = p → Level Atom tok s (s.left p) xs l → Level Atom tok s (s.right p) ys r →
      Level Atom tok s p (xs ++ tok o :: ys) (.binary o l r)
  | ternary {xs ys zs : List κ} {c t e : Node α} : Level Atom tok s s.cond xs c →
      Level Atom tok s s.mid ys t → Level Atom tok s s.els zs e →
      Level Atom tok s 14 (xs ++ tok .ternaryQ :: (ys ++ tok .ternaryC :: zs))
        (.binary .ternaryQ c (.binary .ternaryC t e))
  | assign {xs ys : List κ} {l r : Node α} : Level Atom tok s 14 xs l → Level Atom tok s 15 ys r →
      Level Atom tok s 15 (xs ++ tok .varAssign :: ys) (.binary .varAssign l r)

section Level

variable {Atom Atom' : List κ → Node α → Prop} {tok : Op → κ} {s s' : Shape}

variable {k : ℕ} {xs : List κ} {n : Node α}

section

variable (h : Level Atom tok s k xs n)

include h

theorem Level.mono {k' : ℕ} (hk : k ≤ k') : Level Atom tok s k' xs n := by
  induction k', hk using Nat.le_induction with
  | base => exact h
  | succ k' _ ih => exact ih.up

theorem Level.weaken (hatom : ∀ xs n, Atom xs n → Atom' xs n)
    (hleft : ∀ p, s.left p ≤ s'.left p) (hright : ∀ p, s.right p ≤ s'.right p)
    (hcond : s.cond ≤ s'.cond) (hmid : s.mid ≤ s'.mid) (hels : s.els ≤ s'.els) :
    Level Atom' tok s' k xs n := by
  induction h with
  | atom h => exact .atom (hatom _ _ h)
  | up _ ih => exact ih.up
  | unary ho _ ih => exact .unary ho ih
  | binary h2 h13 ho _ _ ihl ihr =>
    exact .binary h2 h13 ho (ihl.mono (hleft _)) (ihr.mono (hright _))
  | ternary _ _ _ ihc iht ihe =>
    exact .ternary (ihc.mono hcond) (iht.mono hmid) (ihe.mono hels)
  | assign _ _ ihl ihr => exact .assign ihl ihr

theorem Level.isTerm (hatom : ∀ xs n, Atom xs n → isTerm n = true) : Expr.isTerm n = true := by
  induction h with
  | atom h => exact hatom _ _ h
  | up _ ih => exact ih
  | unary _ _ _ => rfl
  | binary _ _ _ _ _ _ _ => rfl
  | ternary _ _ _ _ _ _ => rfl
  | assign _ _ _ _ => rfl

end

end Level

/-! ## What the phases leave -/

def NodeAtom (xs : List (Node α)) (n : Node α) : Prop := xs = [n] ∧ isTerm n = true

def opNode (o : Op) : Node α := .leaf (.op o)

abbrev ScanLevel (k : ℕ) (xs : List (Node α)) (n : Node α) : Prop :=
  Level NodeAtom opNode scanned k xs n

variable {k : ℕ} {xs : List (Node α)} {n : Node α}

theorem ScanLevel.isTerm (h : ScanLevel k xs n) : Expr.isTerm n = true :=
  Level.isTerm h fun _ _ h => h.2

def Unbound (k : ℕ) (o : Op) : Prop :=
  iPrecedence o ≤ 0 ∨ (k : ℤ) < iPrecedence o ∨ o = .ternaryC

def PhasePiece (k : ℕ) (xs : List (Node α)) (n : Node α) : Prop :=
  ScanLevel k xs n ∨ ∃ o, n = opNode o ∧ xs = [n] ∧ Unbound k o

theorem PhasePiece.of_isTerm (h : PhasePiece k xs n) (hn : isTerm n = true) : ScanLevel k xs n := by
  rcases h with h | ⟨o, rfl, -, -⟩
  · exact h
  · cases hn

variable {o : Op}

theorem PhasePiece.of_op (h : PhasePiece k xs (opNode o)) : xs = [opNode o] ∧ Unbound k o := by
  rcases h with h | ⟨o', ho, hxs, hunbound⟩
  · exact absurd h.isTerm (by simp [opNode, isTerm])
  · cases ho
    exact ⟨hxs, hunbound⟩

theorem PhasePiece.keep (h : PhasePiece k xs n)
    (hn : ∀ o, n = opNode o → iPrecedence o = k + 1 → o = .ternaryC) :
    PhasePiece (k + 1) xs n := by
  rcases h with h | ⟨o, rfl, hxs, hunbound⟩
  · exact .inl h.up
  · refine .inr ⟨o, rfl, hxs, ?_⟩
    have := hn o rfl
    rcases hunbound with h | h | h
    · exact .inl h
    · by_cases hk : iPrecedence o = k + 1
      · exact .inr (.inr (this hk))
      · refine .inr (.inl ?_)
        omega
    · exact .inr (.inr h)

theorem phasePiece_zero (nodes : List (Node α)) : Pieces (PhasePiece 0) nodes nodes := by
  refine Pieces.refl fun n _ => ?_
  rcases n with (a | o) | _ | _
  · exact .inl (.atom ⟨rfl, rfl⟩)
  · refine .inr ⟨o, rfl, rfl, ?_⟩
    cases o <;> simp [Unbound, iPrecedence]
  · exact .inl (.atom ⟨rfl, rfl⟩)
  · exact .inl (.atom ⟨rfl, rfl⟩)

theorem isUnary_iff : isUnary n = true ↔ ∃ o, n = opNode o ∧ iPrecedence o = 1 := by
  rcases n with (a | o) | _ | _ <;> simp [isUnary, opNode]

theorem isOp_iff : isOp o n = true ↔ n = opNode o := by
  rcases n with (a | o') | _ | _ <;> simp [isOp, opNode]

variable {L nodes r : List (Node α)}

theorem unaryScan_pieces (h : unaryScan nodes = some r) (hpieces : Pieces (PhasePiece 0) L nodes) :
    Pieces (PhasePiece 1) L r := by
  induction nodes generalizing L r with
  | nil =>
    cases h
    rw [pieces_nil_right] at hpieces ⊢
    exact hpieces
  | cons x rest ih =>
    obtain ⟨xs, L', rfl, hx, hrest⟩ := pieces_cons_right.mp hpieces
    rw [unaryScan] at h
    obtain ⟨nodes', hnodes, h⟩ := bind_eq_some_iff.mp h
    have hrest' := ih hnodes hrest
    split_ifs at h with hun
    · obtain ⟨o, rfl, ho⟩ := isUnary_iff.mp hun
      obtain ⟨rfl, -⟩ := hx.of_op
      rcases nodes' with _ | ⟨a, nodes'⟩
      · cases h
      · rw [opNode, bindUnaryNode] at h
        split_ifs at h with ha
        cases h
        obtain ⟨as, L', rfl, hpa, hrest'⟩ := pieces_cons_right.mp hrest'
        rw [← append_assoc]
        exact Pieces.cons (.inl (Level.unary ho (hpa.of_isTerm ha))) hrest'
    · cases h
      refine Pieces.cons (hx.keep fun o ho hprec => ?_) hrest'
      exact absurd (isUnary_iff.mpr ⟨o, ho, by simpa using hprec⟩) hun

variable {x : Node α}

theorem fireBinary_eq_some {p : ℤ} {mk : Node α → Node α → Node α} :
    fireBinary p x = some mk ↔ ∃ o, x = opNode o ∧ iPrecedence o = p ∧ mk = .binary o := by
  rcases x with (a | o) | _ | _
  · simp [fireBinary, opNode]
  · simp only [fireBinary, opNode, ite_none_right_eq_some, some.injEq,
      Node.leaf.injEq, Token.op.injEq]
    constructor
    · rintro ⟨ho, rfl⟩
      exact ⟨o, rfl, ho, rfl⟩
    · rintro ⟨o', rfl, ho, rfl⟩
      exact ⟨ho, rfl⟩
  · simp [fireBinary, opNode]
  · simp [fireBinary, opNode]

theorem fireBinary_eq_none {p : ℤ} :
    fireBinary p x = none ↔ ∀ o, x = opNode o → iPrecedence o ≠ p := by
  rcases x with (a | o) | _ | _ <;> simp [fireBinary, opNode]

theorem binaryScan_pieces (hk : 1 ≤ k) (hk' : k ≤ 12)
    (h : bindScan isTerm (fireBinary (k + 1 : ℕ)) [] nodes = some r)
    (hpieces : Pieces (PhasePiece k) L nodes) : Pieces (PhasePiece (k + 1)) L r.reverse := by
  rw [← nil_append L]
  refine bindScan_pieces ?_ ?_ h Pieces.nil hpieces
  · intro xs x hx hY
    refine hY.keep fun o ho hprec => ?_
    exact absurd (by simpa using hprec) (fireBinary_eq_none.mp hx o ho)
  · intro bs b xs x as a mk hx hb ha hYb hYx hYa
    obtain ⟨o, rfl, ho, rfl⟩ := fireBinary_eq_some.mp hx
    obtain ⟨rfl, -⟩ := hYx.of_op
    rw [append_assoc]
    exact .inl (Level.binary (by omega) (by omega) ho (hYb.of_isTerm hb) (hYa.of_isTerm ha))

variable {behind ahead : List (Node α)}

theorem takeTernaryNodes_eq_some {behind' ahead' : List (Node α)} {q : Node α} :
    takeTernaryNodes behind ahead = some (q, behind', ahead') ↔
      ∃ c t e, behind = c :: behind' ∧ ahead = t :: opNode .ternaryC :: e :: ahead' ∧
        isTerm c = true ∧ isTerm t = true ∧ isTerm e = true ∧
        q = .binary .ternaryQ c (.binary .ternaryC t e) := by
  constructor
  · intro h
    unfold takeTernaryNodes at h
    split at h
    · next c bs t colon e as =>
        split_ifs at h with hterms
        simp only [Bool.and_eq_true, isOp_iff] at hterms
        obtain ⟨⟨⟨hc, ht⟩, rfl⟩, he⟩ := hterms
        obtain ⟨rfl, rfl, rfl⟩ : _ ∧ _ ∧ _ := by simpa using h
        exact ⟨c, t, e, rfl, rfl, hc, ht, he, rfl⟩
    · cases h
  · rintro ⟨c, t, e, rfl, rfl, hc, ht, he, rfl⟩
    simp [takeTernaryNodes, hc, ht, he, isOp, opNode]

theorem ternaryScan_pieces {n : ℕ} (hn : ahead.length ≤ n) (h : ternaryScan n behind ahead = some r)
    {L₁ L₂ : List (Node α)} (hbehind : Pieces (PhasePiece 14) L₁ behind.reverse)
    (hahead : Pieces (PhasePiece 13) L₂ ahead) :
    Pieces (PhasePiece 14) (L₁ ++ L₂) r.reverse := by
  induction n generalizing behind ahead L₁ L₂ with
  | zero =>
    obtain rfl := length_eq_zero_iff.mp (Nat.le_zero.mp hn)
    cases h
    rw [pieces_nil_right.mp hahead, append_nil]
    exact hbehind
  | succ n ih =>
    rcases ahead with _ | ⟨x, ahead⟩
    · cases h
      rw [pieces_nil_right.mp hahead, append_nil]
      exact hbehind
    obtain ⟨xs, L', rfl, hx, hrest⟩ := pieces_cons_right.mp hahead
    rw [ternaryScan] at h
    split_ifs at h with hq
    · cases htake : takeTernaryNodes behind ahead with
      | none =>
        rw [htake] at h
        cases h
      | some p =>
        obtain ⟨q, behind', ahead'⟩ := p
        rw [htake] at h
        have hshort := takeTernaryNodes_length htake
        obtain ⟨c, t, e, rfl, rfl, hc, ht, he, rfl⟩ := takeTernaryNodes_eq_some.mp htake
        obtain rfl := isOp_iff.mp hq
        obtain ⟨rfl, -⟩ := hx.of_op
        rw [reverse_cons] at hbehind
        obtain ⟨L, cs, rfl, hbehind, hYc⟩ := pieces_append_right.mp hbehind
        obtain ⟨ts, L', rfl, hYt, hcolon⟩ := pieces_cons_right.mp hrest
        obtain ⟨ks, L', rfl, hYk, helse⟩ := pieces_cons_right.mp hcolon
        obtain ⟨es, L', rfl, hYe, hrest'⟩ := pieces_cons_right.mp helse
        obtain ⟨rfl, -⟩ := hYk.of_op
        have hnew : ScanLevel 14 (cs ++ opNode .ternaryQ :: (ts ++ opNode .ternaryC :: es)) _ :=
          Level.ternary ((pieces_single.mp hYc).of_isTerm hc) (hYt.of_isTerm ht) (hYe.of_isTerm he)
        have heq : L ++ cs ++ ([opNode .ternaryQ] ++ (ts ++ ([opNode .ternaryC] ++ (es ++ L')))) =
            L ++ (cs ++ opNode .ternaryQ :: (ts ++ opNode .ternaryC :: es)) ++ L' := by
          simp
        rw [heq]
        refine ih (by simp only [length_cons] at hn hshort; omega) h ?_ hrest'
        rw [reverse_cons]
        exact hbehind.append (Pieces.single (.inl hnew))
    · rw [← append_assoc]
      refine ih (Nat.le_of_succ_le_succ hn) h ?_ hrest
      rw [reverse_cons]
      refine hbehind.append (Pieces.single (hx.keep fun o ho hprec => ?_))
      subst ho
      have hne : o ≠ .ternaryQ := by
        rintro rfl
        exact hq (isOp_iff.mpr rfl)
      revert hprec hne
      cases o <;> simp [iPrecedence]

theorem fireAssign_eq_some {mk : Node α → Node α → Node α} :
    fireAssign x = some mk ↔
      x = opNode .varAssign ∧ mk = fun right left => .binary .varAssign left right := by
  rcases x with (a | o) | _ | _
  · simp [fireAssign, opNode]
  · cases o <;> simp [fireAssign, opNode, eq_comm]
  · simp [fireAssign, opNode]
  · simp [fireAssign, opNode]

theorem assignScan_pieces (h : bindScan isTerm fireAssign [] nodes.reverse = some r)
    (hpieces : Pieces (PhasePiece 14) L nodes) : Pieces (PhasePiece 15) L r := by
  have hscan : Pieces (fun xs n => PhasePiece 15 xs.reverse n) ([] ++ L.reverse) r.reverse := by
    refine bindScan_pieces ?_ ?_ h Pieces.nil hpieces.reverse
    · intro xs x hx hY
      refine hY.keep fun o ho hprec => ?_
      subst ho
      revert hprec hx
      cases o <;> simp [iPrecedence, fireAssign, opNode]
    · intro bs b xs x as a mk hx hb ha hYb hYx hYa
      obtain ⟨rfl, rfl⟩ := fireAssign_eq_some.mp hx
      have hxs := hYx.of_op.1
      have heq : (bs ++ xs ++ as).reverse = as.reverse ++ opNode .varAssign :: bs.reverse := by
        simp [hxs]
      rw [heq]
      exact .inl (Level.assign (hYa.of_isTerm ha) (hYb.of_isTerm hb))
  have := hscan.reverse
  simpa using this

theorem stage_pieces (hk : k ≤ 14) (h : stage (k + 1) nodes = some r)
    (hpieces : Pieces (PhasePiece k) L nodes) :
    Pieces (PhasePiece (k + 1)) L r := by
  rw [stage] at h
  split_ifs at h with h1 h14 h15
  · obtain rfl : k = 0 := by omega
    exact unaryScan_pieces h hpieces
  · obtain rfl : k = 13 := by omega
    obtain ⟨r', hr', rfl⟩ := map_eq_some_iff.mp h
    exact ternaryScan_pieces le_rfl hr' Pieces.nil hpieces
  · obtain rfl : k = 14 := by omega
    exact assignScan_pieces h hpieces
  · obtain ⟨r', hr', rfl⟩ := map_eq_some_iff.mp h
    exact binaryScan_pieces (by omega) (by omega) hr' hpieces

theorem phases_pieces (hk : k ≤ 15) (h : phases k nodes = some r) :
    Pieces (PhasePiece k) nodes r := by
  induction k generalizing r with
  | zero =>
    cases h
    exact phasePiece_zero nodes
  | succ k ih =>
    obtain ⟨r', hr', h⟩ := bind_eq_some_iff.mp h
    exact stage_pieces (by omega) h (ih (by omega) hr')

/-! ## What the phases do to expressions -/

variable {a b a' b' : List (Node α)}

theorem unaryScan_append (ha : unaryScan a = some a') (hb : unaryScan b = some b') :
    unaryScan (a ++ b) = some (a' ++ b') := by
  induction a generalizing a' with
  | nil =>
    cases ha
    exact hb
  | cons x rest ih =>
    rw [unaryScan] at ha
    obtain ⟨r, hr, ha⟩ := bind_eq_some_iff.mp ha
    rw [cons_append, unaryScan, ih hr]
    simp only [bind_eq_bind, bind_some]
    by_cases hx : isUnary x = true
    · rw [if_pos hx] at ha ⊢
      obtain ⟨o, rfl, ho⟩ := isUnary_iff.mp hx
      rcases r with _ | ⟨y, r⟩
      · cases ha
      · rw [cons_append]
        rw [opNode, bindUnaryNode] at ha ⊢
        split_ifs at ha with hy
        · cases ha
          rw [if_pos hy]
          rfl
    · rw [if_neg hx] at ha ⊢
      cases ha
      rfl

theorem ternaryScan_frame {n : ℕ} (c : List (Node α)) (h : ternaryScan n behind ahead = some r) :
    ternaryScan n (behind ++ c) ahead = some (r ++ c) := by
  induction n generalizing behind ahead with
  | zero =>
    cases h
    simp [ternaryScan]
  | succ n ih =>
    rcases ahead with _ | ⟨x, ahead⟩
    · cases h
      rfl
    rw [ternaryScan] at h ⊢
    split_ifs at h ⊢ with hq
    · cases htake : takeTernaryNodes behind ahead with
      | none =>
        rw [htake] at h
        cases h
      | some p =>
        obtain ⟨q, behind', ahead'⟩ := p
        rw [htake] at h
        obtain ⟨c', t, e, rfl, hahead, hterms⟩ := takeTernaryNodes_eq_some.mp htake
        have htake' : takeTernaryNodes (c' :: behind' ++ c) ahead =
            some (q, behind' ++ c, ahead') :=
          takeTernaryNodes_eq_some.mpr ⟨c', t, e, rfl, hahead, hterms⟩
        rw [htake']
        exact ih h
    · exact ih h

theorem ternaryScan_append {n m : ℕ} {ahead' : List (Node α)} (hn : ahead.length ≤ n)
    (hm : (ahead ++ ahead').length ≤ m) (h : ternaryScan n behind ahead = some r) :
    ternaryScan m behind (ahead ++ ahead') = ternaryScan ahead'.length r ahead' := by
  induction n generalizing behind ahead m with
  | zero =>
    obtain rfl := length_eq_zero_iff.mp (Nat.le_zero.mp hn)
    cases h
    exact ternaryScan_length (by simpa using hm)
  | succ n ih =>
    rcases ahead with _ | ⟨x, ahead⟩
    · cases h
      exact ternaryScan_length (by simpa using hm)
    obtain ⟨m, rfl⟩ : ∃ j, m = j + 1 := ⟨m - 1, by simp at hm; omega⟩
    have hm' : (ahead ++ ahead').length ≤ m := Nat.le_of_succ_le_succ hm
    have hn' : ahead.length ≤ n := Nat.le_of_succ_le_succ hn
    rw [cons_append, ternaryScan]
    rw [ternaryScan] at h
    split_ifs at h ⊢ with hq
    · cases htake : takeTernaryNodes behind ahead with
      | none =>
        rw [htake] at h
        cases h
      | some p =>
        obtain ⟨q, behind', rest⟩ := p
        rw [htake] at h
        have hshort := takeTernaryNodes_length htake
        obtain ⟨c, t, e, hbehind, rfl, hterms⟩ := takeTernaryNodes_eq_some.mp htake
        have htake' : takeTernaryNodes behind (t :: opNode .ternaryC :: e :: rest ++ ahead') =
            some (q, behind', rest ++ ahead') :=
          takeTernaryNodes_eq_some.mpr ⟨c, t, e, hbehind, rfl, hterms⟩
        rw [htake']
        refine ih (by omega) ?_ h
        simp only [length_append, length_cons] at hm' ⊢
        omega
    · exact ih hn' hm' h

theorem stage_append (ha : stage k a = some a') (hb : stage k b = some b') :
    stage k (a ++ b) = some (a' ++ b') := by
  rw [stage] at ha hb ⊢
  split_ifs at ha hb ⊢ with h1 h14 h15
  · exact unaryScan_append ha hb
  · obtain ⟨ra, hra, rfl⟩ := map_eq_some_iff.mp ha
    obtain ⟨rb, hrb, rfl⟩ := map_eq_some_iff.mp hb
    have hframe := ternaryScan_frame ra hrb
    rw [nil_append] at hframe
    rw [ternaryScan_append le_rfl le_rfl hra, hframe, map_some, reverse_append]
  · rw [reverse_append]
    exact bindScan_append_of_some hb ha
  · obtain ⟨ra, hra, rfl⟩ := map_eq_some_iff.mp ha
    obtain ⟨rb, hrb, rfl⟩ := map_eq_some_iff.mp hb
    rw [bindScan_append_of_some hra hrb, map_some, reverse_append]

theorem phases_append (ha : phases k a = some a') (hb : phases k b = some b') :
    phases k (a ++ b) = some (a' ++ b') := by
  induction k generalizing a' b' with
  | zero =>
    cases ha
    cases hb
    rfl
  | succ k ih =>
    obtain ⟨ra, hra, ha⟩ := bind_eq_some_iff.mp ha
    obtain ⟨rb, hrb, hb⟩ := bind_eq_some_iff.mp hb
    rw [phases, ih hra hrb]
    exact stage_append ha hb

theorem stage_term (k : ℕ) (hn : isTerm n = true) : stage k [n] = some [n] := by
  rcases n with (a | o) | _ | _
  · simp [stage, unaryScan, isUnary, ternaryScan, isOp, bindScan, fireAssign, fireBinary]
  · cases hn
  · simp [stage, unaryScan, isUnary, ternaryScan, isOp, bindScan, fireAssign, fireBinary]
  · simp [stage, unaryScan, isUnary, ternaryScan, isOp, bindScan, fireAssign, fireBinary]

theorem stage_op (ho : iPrecedence o ≠ k ∨ o = .ternaryC) :
    stage k [opNode o] = some [(opNode o : Node α)] := by
  rw [stage]
  split_ifs with h1 h14 h15
  · subst h1
    have hun : isUnary (opNode o : Node α) ≠ true := by
      rw [Ne, isUnary_iff]
      rintro ⟨o', ho', hprec⟩
      cases ho'
      rcases ho with ho | rfl
      · exact ho (by simpa using hprec)
      · simp [iPrecedence] at hprec
    simp [unaryScan, hun]
  · subst h14
    have hq : isOp .ternaryQ (opNode o : Node α) ≠ true := by
      rw [Ne, isOp_iff]
      intro ho'
      cases ho'
      simp [iPrecedence] at ho
    simp [ternaryScan, hq]
  · subst h15
    have hfire : fireAssign (opNode o : Node α) = none := by
      cases o
      all_goals first
        | rfl
        | simp [iPrecedence] at ho
    simp [bindScan, hfire]
  · have hfire : fireBinary k (opNode o : Node α) = none := by
      rw [fireBinary_eq_none]
      rintro o' ho' hprec
      cases ho'
      rcases ho with ho | rfl
      · exact ho hprec
      · simp only [iPrecedence] at hprec
        omega
    simp [bindScan, hfire]

theorem phases_op (ho : Unbound k o) : phases k [opNode o] = some [(opNode o : Node α)] := by
  induction k with
  | zero => rfl
  | succ k ih =>
    have hk : Unbound k o := by
      rcases ho with h | h | h
      · exact .inl h
      · refine .inr (.inl ?_)
        omega
      · exact .inr (.inr h)
    rw [phases, ih hk]
    refine stage_op ?_
    rcases ho with h | h | h
    · refine .inl ?_
      omega
    · exact .inl h.ne'
    · exact .inr h

theorem stage_binary {p : ℕ} (hp : 2 ≤ p) (hp' : p ≤ 13) (ho : iPrecedence o = p) {l r : Node α}
    (ha : stage p a = some [l]) (hl : isTerm l = true) (hr : isTerm r = true) :
    stage p (a ++ [opNode o, r]) = some [.binary o l r] := by
  rw [stage, if_neg (by omega), if_neg (by omega), if_neg (by omega)] at ha ⊢
  obtain ⟨ra, hra, hra'⟩ := map_eq_some_iff.mp ha
  obtain rfl : ra = [l] := by simpa using congrArg List.reverse hra'
  rw [bindScan_operator hra (fireBinary_eq_some.mpr ⟨o, rfl, ho, rfl⟩) hl hr]
  rfl

theorem stage_ternary {c t e : Node α} (ha : stage 14 a = some [c]) (hc : isTerm c = true)
    (ht : isTerm t = true) (he : isTerm e = true) :
    stage 14 (a ++ [opNode .ternaryQ, t, opNode .ternaryC, e]) =
      some [.binary .ternaryQ c (.binary .ternaryC t e)] := by
  rw [stage, if_neg (by omega), if_pos rfl] at ha ⊢
  obtain ⟨ra, hra, hra'⟩ := map_eq_some_iff.mp ha
  obtain rfl : ra = [c] := by simpa using congrArg List.reverse hra'
  have htake : takeTernaryNodes [c] [t, opNode .ternaryC, e] =
      some (.binary .ternaryQ c (.binary .ternaryC t e), [], []) :=
    takeTernaryNodes_eq_some.mpr ⟨c, t, e, rfl, rfl, hc, ht, he, rfl⟩
  rw [ternaryScan_append le_rfl le_rfl hra]
  simp only [length_cons, length_nil, ternaryScan, isOp, opNode, beq_self_eq_true,
    if_true] at htake ⊢
  rw [htake]
  rfl

theorem stage_assign {l r : Node α} (hb : stage 15 b = some [r]) (hl : isTerm l = true)
    (hr : isTerm r = true) :
    stage 15 ([l, opNode .varAssign] ++ b) = some [.binary .varAssign l r] := by
  rw [stage, if_neg (by omega), if_neg (by omega), if_pos rfl] at hb ⊢
  rw [reverse_append]
  exact bindScan_operator hb (fireAssign_eq_some.mpr ⟨rfl, rfl⟩) hr hl

theorem phases_of_scanLevel (h : ScanLevel k xs n) : phases k xs = some [n] := by
  induction h with
  | atom h =>
    obtain ⟨rfl, -⟩ := h
    rfl
  | up h ih =>
    rw [phases, ih]
    exact stage_term _ (ScanLevel.isTerm h)
  | @unary o xs n ho hn ih =>
    -- the only phase up to level 1 is the unary one
    have hscan : unaryScan xs = some [n] := ih
    have hterm : isTerm n = true := ScanLevel.isTerm hn
    have hun : isUnary (opNode o : Node α) = true := isUnary_iff.mpr ⟨o, rfl, ho⟩
    show unaryScan (opNode o :: xs) = _
    rw [unaryScan, hscan]
    simp only [bind_eq_bind, bind_some, hun, if_true]
    rw [opNode, bindUnaryNode, if_pos hterm]
  | @binary p o xs ys l r h2 h13 ho hl hr ihl ihr =>
    obtain ⟨k, rfl⟩ : ∃ k, p = k + 1 := ⟨p - 1, by omega⟩
    obtain ⟨a, ha, hstage⟩ := bind_eq_some_iff.mp ihl
    have hop : phases k [opNode o] = some [(opNode o : Node α)] :=
      phases_op (.inr (.inl (by rw [ho]; push_cast; omega)))
    have hall := phases_append (phases_append ha hop) ihr
    rw [append_assoc, append_assoc] at hall
    rw [phases, show xs ++ opNode o :: ys = xs ++ ([opNode o] ++ ys) from rfl, hall]
    exact stage_binary h2 h13 ho hstage (ScanLevel.isTerm hl) (ScanLevel.isTerm hr)
  | @ternary xs ys zs c t e hc ht he ihc iht ihe =>
    obtain ⟨a, ha, hstage⟩ := bind_eq_some_iff.mp ihc
    have hq : phases 13 [opNode .ternaryQ] = some [(opNode .ternaryQ : Node α)] :=
      phases_op (.inr (.inl (by decide)))
    have hcolon : phases 13 [opNode .ternaryC] = some [(opNode .ternaryC : Node α)] :=
      phases_op (.inr (.inr rfl))
    have hall := phases_append ha (phases_append hq (phases_append iht (phases_append hcolon ihe)))
    rw [phases, show xs ++ opNode .ternaryQ :: (ys ++ opNode .ternaryC :: zs) =
      xs ++ ([opNode .ternaryQ] ++ (ys ++ ([opNode .ternaryC] ++ zs))) from rfl, hall]
    exact stage_ternary hstage (ScanLevel.isTerm hc) (ScanLevel.isTerm ht) (ScanLevel.isTerm he)
  | @assign xs ys l r hl hr ihl ihr =>
    obtain ⟨b, hb, hstage⟩ := bind_eq_some_iff.mp ihr
    have hop : phases 14 [opNode .varAssign] = some [(opNode .varAssign : Node α)] :=
      phases_op (.inr (.inl (by decide)))
    have hall := phases_append ihl (phases_append hop hb)
    rw [phases, show xs ++ opNode .varAssign :: ys = xs ++ ([opNode .varAssign] ++ ys) from rfl,
      hall]
    exact stage_assign hstage (ScanLevel.isTerm hl) (ScanLevel.isTerm hr)

def FinalPiece (xs : List (Node α)) (n : Node α) : Prop :=
  ScanLevel 15 xs n ∨
    xs = [n] ∧ (n = opNode .openBracket ∨ n = opNode .closeBracket ∨ n = opNode .ternaryC)

theorem phasePiece_fifteen : PhasePiece 15 xs n ↔ FinalPiece xs n := by
  refine or_congr_right ?_
  constructor
  · rintro ⟨o, rfl, hxs, hunbound⟩
    refine ⟨hxs, ?_⟩
    revert hunbound
    cases o <;> simp [Unbound, iPrecedence, opNode]
  · rintro ⟨hxs, rfl | rfl | rfl⟩
    · exact ⟨_, rfl, hxs, .inl (by decide)⟩
    · exact ⟨_, rfl, hxs, .inl (by decide)⟩
    · exact ⟨_, rfl, hxs, .inr (.inr rfl)⟩

theorem phases_eq_some_iff : phases 15 nodes = some r ↔ Pieces FinalPiece nodes r := by
  constructor
  · intro h
    exact (phases_pieces le_rfl h).mono fun xs n _ hn => phasePiece_fifteen.mp hn
  · intro h
    induction h with
    | nil => rfl
    | @cons xs n L M hn _ ih =>
      refine phases_append (?_ : phases 15 xs = some [n]) ih
      rcases phasePiece_fifteen.mpr hn with h | ⟨o, rfl, rfl, ho⟩
      · exact phases_of_scanLevel h
      · exact phases_op ho

end Th8.Expr
