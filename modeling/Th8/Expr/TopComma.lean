import Th8.Expr.Tokens

/-!
# Commas between expressions

With `TH8_EXPR_TOP_COMMA` an expression is cut at its commas before any part of it is parsed.
`th8ExprFindTopComma` counts parentheses, brackets, braces and quotes, each on their own and
byte by byte, where `th8ExprParse` goes from operand to operand.
-/

namespace Th8.Expr

open List

/-- What `th8ExprFindTopComma` keeps count of. -/
structure CommaScan where
  parenDepth : ℕ
  bracketDepth : ℕ
  braceDepth : ℕ
  inQuote : Bool
deriving DecidableEq

namespace CommaScan

def start : CommaScan := ⟨0, 0, 0, false⟩

/-- The counts behind a byte that no backslash hides. -/
def read (s : CommaScan) (c : Byte) : CommaScan :=
  if s.inQuote then
    if c == chQuote && s.bracketDepth == 0 then { s with inQuote := false }
    else if c == chOpenBracket then { s with bracketDepth := s.bracketDepth + 1 }
    else if c == chCloseBracket then { s with bracketDepth := s.bracketDepth - 1 }
    else s
  else if c == chQuote then { s with inQuote := true }
  else if c == chOpenParen then { s with parenDepth := s.parenDepth + 1 }
  else if c == chCloseParen then { s with parenDepth := s.parenDepth - 1 }
  else if c == chOpenBracket then { s with bracketDepth := s.bracketDepth + 1 }
  else if c == chCloseBracket then { s with bracketDepth := s.bracketDepth - 1 }
  else if c == chOpenBrace then { s with braceDepth := s.braceDepth + 1 }
  else if c == chCloseBrace then { s with braceDepth := s.braceDepth - 1 }
  else s

def stopsAt (s : CommaScan) (c : Byte) : Bool :=
  !s.inQuote && c == chComma && s.parenDepth == 0 && s.bracketDepth == 0 && s.braceDepth == 0

end CommaScan

/-- The loop of `th8ExprFindTopComma`: the text before the comma and the text behind it. -/
def findTopCommaFrom : CommaScan → Bytes → Option (Bytes × Bytes)
  | _, [] => none
  | s, c :: rest =>
    if c == chBackslash then
      match rest with
      | [] => none
      | d :: rest' => (findTopCommaFrom s rest').map fun r => (c :: d :: r.1, r.2)
    else if s.stopsAt c then some ([], rest)
    else (findTopCommaFrom (s.read c) rest).map fun r => (c :: r.1, r.2)

/-- `th8ExprFindTopComma`. -/
def findTopComma (z : Bytes) : Option (Bytes × Bytes) := findTopCommaFrom .start z

/-- The loop of `Th8_Expr` over the commas, with so many rounds. -/
def topPiecesWithin : ℕ → Bytes → List Bytes
  | 0, z => [z]
  | rounds + 1, z =>
    match findTopComma z with
    | none => [z]
    | some (zExpr, rest) => zExpr :: topPiecesWithin rounds rest

/-- The expressions that `Th8_Expr` evaluates one after the other.  There are no more commas
than bytes. -/
def topPieces (z : Bytes) : List Bytes := topPiecesWithin z.length z

structure Pieces where
  first : Bytes
  others : List Bytes
  unread : Bytes
deriving DecidableEq

namespace Pieces

def push (c : Byte) (p : Pieces) : Pieces := { p with first := c :: p.first }

def separate (p : Pieces) : Pieces := ⟨[], p.first :: p.others, p.unread⟩

def text (p : Pieces) : Bytes :=
  p.first ++ (p.others.flatMap (chComma :: ·) ++ p.unread)

@[simp] theorem text_push (c : Byte) (p : Pieces) : (p.push c).text = c :: p.text := rfl

@[simp] theorem text_separate (p : Pieces) : p.separate.text = chComma :: p.text := by
  simp [text, separate]

end Pieces

section Operands

variable (features : ExprFeatures) (isWord : Bytes → Bool) (zExpr : Bytes)

/-- The tokens of a text, `skip` more bytes of which belong to the one that has begun.  A
comma that `th8ExprParse` meets between two tokens ends a piece at the depth zero of
parentheses; what no token begins stays unread. -/
def operandPiecesFrom : ℕ → ℕ → Bool → Bytes → Pieces
  | _, _, _, [] => ⟨[], [], []⟩
  | skip + 1, depth, prevIsTerm, c :: rest =>
    (operandPiecesFrom skip depth prevIsTerm rest).push c
  | 0, depth, prevIsTerm, c :: rest =>
    match blankLength (c :: rest) with
    | blanks + 1 => (operandPiecesFrom blanks depth prevIsTerm rest).push c
    | 0 =>
      if c == chComma then
        if depth = 0 then (operandPiecesFrom 0 0 false rest).separate
        else (operandPiecesFrom 0 depth false rest).push c
      else
        match nextToken features isWord zExpr prevIsTerm (c :: rest) with
        | .error _ => ⟨[], [], c :: rest⟩
        | .ok (t, n) =>
          (operandPiecesFrom (n - 1) (t.depth depth) t.isTerm rest).push c

def operandPieces (z : Bytes) : Pieces := operandPiecesFrom features isWord z 0 0 false z

end Operands

/-- The expressions `ts` are these pieces; of the last one there may be more. -/
def BeginWith : Bytes → List Bytes → List Bytes → Prop
  | last, [], ts => ∃ zExpr rest, ts = zExpr :: rest ∧ last <+: zExpr
  | first, p :: ps, ts => ∃ rest, ts = first :: rest ∧ BeginWith p ps rest

/-- As far as `th8ExprParse` can read the expression, it is cut exactly at the commas
between operands. -/
def SplitsAtOperands (features : ExprFeatures) (isWord : Bytes → Bool) (z : Bytes) : Prop :=
  BeginWith (operandPieces features isWord z).first (operandPieces features isWord z).others
    (topPieces z)

/-! ## Plain pieces -/

def scanFrom : CommaScan → Bytes → Option CommaScan
  | s, [] => some s
  | s, c :: rest =>
    if c == chBackslash then
      match rest with
      | [] => none
      | _ :: rest' => scanFrom s rest'
    else scanFrom (s.read c) rest

def Closed (z : Bytes) : Prop := scanFrom .start z = some .start

def ExposesFrom (s : CommaScan) (z : Bytes) : Prop :=
  ∃ a r, z = a ++ chComma :: r ∧ scanFrom s a = some .start

def Exposes (z : Bytes) : Prop := ExposesFrom .start z

def PlainPieces : Bytes → List Bytes → Prop
  | last, [] => ¬Exposes last
  | first, p :: ps => Closed first ∧ ¬Exposes first ∧ PlainPieces p ps

namespace CommaScan

theorem stopsAt_iff {s : CommaScan} {c : Byte} : s.stopsAt c = true ↔ c = chComma ∧ s = start := by
  obtain ⟨parenDepth, bracketDepth, braceDepth, inQuote⟩ := s
  simp only [stopsAt, start, Bool.and_eq_true, Bool.not_eq_true', beq_iff_eq, mk.injEq]
  tauto

end CommaScan

variable {s : CommaScan} {c : Byte}

theorem scanFrom_cons (hc : c ≠ chBackslash) (z : Bytes) :
    scanFrom s (c :: z) = scanFrom (s.read c) z := by
  rw [scanFrom.eq_def]
  simp [hc]

theorem findTopCommaFrom_cons (hc : c ≠ chBackslash) (z : Bytes) :
    findTopCommaFrom s (c :: z) =
      if s.stopsAt c then some ([], z)
      else (findTopCommaFrom (s.read c) z).map fun r => (c :: r.1, r.2) := by
  rw [findTopCommaFrom.eq_def]
  simp [hc]

theorem not_exposesFrom_nil (s : CommaScan) : ¬ExposesFrom s [] := by
  rintro ⟨a, r, h, -⟩
  simp at h

theorem exposesFrom_lone (s : CommaScan) : ¬ExposesFrom s [chBackslash] := by
  rintro ⟨a, r, h, -⟩
  cases a with
  | nil => exact absurd (List.cons.inj h).1 (by decide)
  | cons c a => simp at h

variable {z : Bytes}

theorem exposesFrom_escape {d : Byte} :
    ExposesFrom s (chBackslash :: d :: z) ↔ ExposesFrom s z := by
  constructor
  · rintro ⟨a, r, h, hscan⟩
    match a with
    | [] => exact absurd (List.cons.inj h).1 (by decide)
    | [c] =>
      obtain ⟨rfl, -⟩ := List.cons.inj h
      cases hscan
    | c :: d' :: a =>
      obtain ⟨rfl, htail⟩ := List.cons.inj h
      cases htail
      exact ⟨a, r, rfl, hscan⟩
  · rintro ⟨a, r, rfl, hscan⟩
    exact ⟨chBackslash :: d :: a, r, rfl, hscan⟩

theorem exposesFrom_cons (hc : c ≠ chBackslash) :
    ExposesFrom s (c :: z) ↔ (c = chComma ∧ s = .start) ∨ ExposesFrom (s.read c) z := by
  constructor
  · rintro ⟨a, r, h, hscan⟩
    cases a with
    | nil =>
      cases h
      exact .inl ⟨rfl, Option.some.inj hscan⟩
    | cons c' a =>
      cases h
      rw [scanFrom_cons hc] at hscan
      exact .inr ⟨a, r, rfl, hscan⟩
  · rintro (⟨rfl, rfl⟩ | ⟨a, r, rfl, hscan⟩)
    · exact ⟨[], z, rfl, rfl⟩
    · exact ⟨c :: a, r, rfl, (scanFrom_cons hc a).trans hscan⟩

theorem ExposesFrom.append (h : ExposesFrom s z) (w : Bytes) : ExposesFrom s (z ++ w) := by
  obtain ⟨a, r, rfl, hscan⟩ := h
  exact ⟨a, r ++ w, by simp, hscan⟩

theorem findTopCommaFrom_spec (s : CommaScan) (z : Bytes) :
    match findTopCommaFrom s z with
    | none => ¬ExposesFrom s z
    | some (a, r) => z = a ++ chComma :: r ∧ scanFrom s a = some .start ∧ ¬ExposesFrom s a := by
  induction s, z using findTopCommaFrom.induct with
  | case1 s => exact not_exposesFrom_nil s
  | case2 s c hback =>
    obtain rfl := eq_of_beq hback
    exact exposesFrom_lone s
  | case3 s c hback d rest ih =>
    obtain rfl := eq_of_beq hback
    have hfind : findTopCommaFrom s (chBackslash :: d :: rest) =
        (findTopCommaFrom s rest).map fun r => (chBackslash :: d :: r.1, r.2) := rfl
    rw [hfind]
    cases hrest : findTopCommaFrom s rest with
    | none =>
      rw [hrest] at ih
      exact fun h => ih (exposesFrom_escape.mp h)
    | some p =>
      rw [hrest] at ih
      obtain ⟨htext, hscan, hfirst⟩ := ih
      exact ⟨by rw [htext]; rfl, hscan, fun h => hfirst (exposesFrom_escape.mp h)⟩
  | case4 s c rest hback hstop =>
    obtain ⟨rfl, rfl⟩ := CommaScan.stopsAt_iff.mp hstop
    rw [findTopCommaFrom_cons (by decide), if_pos hstop]
    exact ⟨rfl, rfl, not_exposesFrom_nil _⟩
  | case5 s c rest hback hstop ih =>
    have hc : c ≠ chBackslash := by simpa using hback
    have hno : ¬(c = chComma ∧ s = .start) := fun h => hstop (CommaScan.stopsAt_iff.mpr h)
    rw [findTopCommaFrom_cons hc, if_neg hstop]
    cases hrest : findTopCommaFrom (s.read c) rest with
    | none =>
      rw [hrest] at ih
      exact fun h => ((exposesFrom_cons hc).mp h).elim hno ih
    | some p =>
      rw [hrest] at ih
      obtain ⟨htext, hscan, hfirst⟩ := ih
      refine ⟨by rw [htext]; rfl, (scanFrom_cons hc _).trans hscan, fun h => ?_⟩
      exact ((exposesFrom_cons hc).mp h).elim hno hfirst

theorem findTopComma_eq_none : findTopComma z = none ↔ ¬Exposes z := by
  have hspec := findTopCommaFrom_spec .start z
  unfold findTopComma
  cases hfind : findTopCommaFrom .start z with
  | none =>
    rw [hfind] at hspec
    exact iff_of_true rfl hspec
  | some p =>
    rw [hfind] at hspec
    obtain ⟨htext, hscan, -⟩ := hspec
    exact iff_of_false nofun fun h => h ⟨p.1, p.2, htext, hscan⟩

variable {a r : Bytes}

theorem exposed_unique {a' r' : Bytes} (h : a ++ chComma :: r = a' ++ chComma :: r')
    (hclosed : Closed a) (hfirst : ¬Exposes a) (hclosed' : Closed a') (hfirst' : ¬Exposes a') :
    a = a' ∧ r = r' := by
  obtain ⟨d, rfl, hd⟩ | ⟨d, rfl, hd⟩ := append_eq_append_iff.mp h
  · cases d with
    | nil => exact ⟨(append_nil a).symm, (List.cons.inj hd).2⟩
    | cons c d =>
      obtain ⟨rfl, -⟩ := List.cons.inj hd
      exact absurd ⟨a, d, rfl, hclosed⟩ hfirst'
  · cases d with
    | nil => exact ⟨append_nil a', (List.cons.inj hd).2.symm⟩
    | cons c d =>
      obtain ⟨rfl, -⟩ := List.cons.inj hd
      exact absurd ⟨a', d, rfl, hclosed'⟩ hfirst

theorem findTopComma_eq_some :
    findTopComma z = some (a, r) ↔ z = a ++ chComma :: r ∧ Closed a ∧ ¬Exposes a := by
  have hspec := findTopCommaFrom_spec .start z
  constructor
  · intro h
    rw [findTopComma] at h
    rw [h] at hspec
    exact hspec
  · rintro ⟨htext, hclosed, hfirst⟩
    cases hfind : findTopComma z with
    | none => exact absurd ⟨a, r, htext, hclosed⟩ (findTopComma_eq_none.mp hfind)
    | some p =>
      rw [findTopComma] at hfind
      rw [hfind] at hspec
      obtain ⟨htext', hclosed', hfirst'⟩ := hspec
      obtain ⟨rfl, rfl⟩ := exposed_unique (htext.symm.trans htext') hclosed hfirst hclosed' hfirst'
      rfl

/-! ## The two ways to cut -/

theorem topPiecesWithin_eq {m n : ℕ} (hm : z.length ≤ m) (hn : z.length ≤ n) :
    topPiecesWithin m z = topPiecesWithin n z := by
  induction m generalizing n z with
  | zero =>
    obtain rfl := length_eq_zero_iff.mp (Nat.le_zero.mp hm)
    cases n <;> rfl
  | succ m ih =>
    cases n with
    | zero =>
      obtain rfl := length_eq_zero_iff.mp (Nat.le_zero.mp hn)
      rfl
    | succ n =>
      simp only [topPiecesWithin]
      cases hfind : findTopComma z with
      | none => rfl
      | some p =>
        obtain ⟨htext, -⟩ := findTopComma_eq_some.mp hfind
        have hlength : p.2.length < z.length := by
          rw [htext, length_append, length_cons]
          omega
        exact congrArg _ (ih (by omega) (by omega))

theorem topPieces_of_none (h : findTopComma z = none) : topPieces z = [z] := by
  rw [topPieces]
  cases z.length with
  | zero => rfl
  | succ n => simp only [topPiecesWithin, h]

theorem topPieces_of_some (h : findTopComma z = some (a, r)) : topPieces z = a :: topPieces r := by
  obtain ⟨htext, -⟩ := findTopComma_eq_some.mp h
  have hlength : z.length = a.length + r.length + 1 := by
    rw [htext, length_append, length_cons]
    omega
  rw [topPieces, hlength, topPiecesWithin, h]
  simp only
  rw [topPieces, topPiecesWithin_eq (by omega) (Nat.le_refl _)]

theorem beginWith_last {last unread : Bytes} :
    BeginWith last [] (topPieces (last ++ unread)) ↔ ¬Exposes last := by
  cases hfind : findTopComma (last ++ unread) with
  | none =>
    rw [topPieces_of_none hfind]
    have hno := findTopComma_eq_none.mp hfind
    exact iff_of_true ⟨_, [], rfl, prefix_append last unread⟩ fun h => hno (h.append unread)
  | some p =>
    obtain ⟨a, r⟩ := p
    obtain ⟨htext, hclosed, hfirst⟩ := findTopComma_eq_some.mp hfind
    rw [topPieces_of_some hfind]
    obtain ⟨d, rfl, hd⟩ | ⟨d, rfl, hd⟩ := append_eq_append_iff.mp htext
    · exact iff_of_true ⟨_, _, rfl, prefix_append last d⟩ fun h => hfirst (h.append d)
    · cases d with
      | nil =>
        rw [append_nil]
        exact iff_of_true ⟨a, _, rfl, prefix_refl a⟩ hfirst
      | cons c d =>
        obtain ⟨rfl, -⟩ := List.cons.inj hd
        refine iff_of_false ?_ (not_not.mpr ⟨a, d, rfl, hclosed⟩)
        rintro ⟨zExpr, rest, heq, hprefix⟩
        obtain rfl := (List.cons.inj heq).1
        have hlength := hprefix.length_le
        simp at hlength

theorem beginWith_iff (first : Bytes) (others : List Bytes) (unread : Bytes) :
    BeginWith first others (topPieces (Pieces.text ⟨first, others, unread⟩)) ↔
      PlainPieces first others := by
  induction others generalizing first with
  | nil => exact beginWith_last
  | cons p ps ih =>
    have htext : Pieces.text ⟨first, p :: ps, unread⟩ =
        first ++ chComma :: Pieces.text ⟨p, ps, unread⟩ := by
      simp [Pieces.text]
    rw [htext, BeginWith, PlainPieces, ← ih p]
    constructor
    · rintro ⟨rest, hpieces, hrest⟩
      cases hfind : findTopComma (first ++ chComma :: Pieces.text ⟨p, ps, unread⟩) with
      | none =>
        rw [topPieces_of_none hfind] at hpieces
        have hlength := congrArg List.length (List.cons.inj hpieces).1
        simp at hlength
      | some q =>
        obtain ⟨a, r⟩ := q
        rw [topPieces_of_some hfind] at hpieces
        cases hpieces
        obtain ⟨htext', hclosed, hfirst⟩ := findTopComma_eq_some.mp hfind
        obtain rfl := (List.cons.inj (append_cancel_left htext')).2
        exact ⟨hclosed, hfirst, hrest⟩
    · rintro ⟨hclosed, hfirst, hrest⟩
      exact ⟨_, topPieces_of_some (findTopComma_eq_some.mpr ⟨rfl, hclosed, hfirst⟩), hrest⟩

section Operands

variable {features : ExprFeatures} {isWord : Bytes → Bool}

theorem operandPiecesFrom_text (zExpr : Bytes) (skip depth : ℕ) (prevIsTerm : Bool) (z : Bytes) :
    (operandPiecesFrom features isWord zExpr skip depth prevIsTerm z).text = z := by
  induction z generalizing skip depth prevIsTerm with
  | nil =>
    cases skip <;> rfl
  | cons c z ih =>
    cases skip with
    | succ skip => rw [operandPiecesFrom, Pieces.text_push, ih]
    | zero =>
      rw [operandPiecesFrom]
      split
      · rw [Pieces.text_push, ih]
      · split_ifs with hcomma hdepth
        · rw [Pieces.text_separate, ih, eq_of_beq hcomma]
        · rw [Pieces.text_push, ih]
        · split
          · rfl
          · rw [Pieces.text_push, ih]

variable (features isWord) in
theorem operandPieces_text (z : Bytes) : (operandPieces features isWord z).text = z :=
  operandPiecesFrom_text z 0 0 false z

end Operands

end Th8.Expr
