import Th8.Expr.Activations

/-!
# How deep expressions are nested

The counter of `th8ExprEval` bounds the evaluation of one tree.  An argument of a function is
an expression inside a parse inside an expression, with a tree of its own, and adds two
activations that the counter does not see.
-/

namespace Th8

open Expr Support.Caller List
open Support (CallTree Caller Delimiters Ended)

namespace ExprCalls

variable {σ : Type} {env : ExprEnv σ}

/-! ## What all functions keep -/

section Keeps

variable {K : ∀ {α : Type}, ExprRun σ α → Prop}

theorem binaryOperator_keeps (hK : Composable K) {o : Op} {left right : ExprRun σ Bytes}
    (hleft : K left) (hright : K right) : K (binaryOperator env o left right) := by
  have htruth : ∀ {x : ExprRun σ Bytes}, K x → K (x >>= fun z => effect (env.toBoolean z)) :=
    fun hx => hK.bind hx fun _ => hK.effect _
  unfold binaryOperator
  split
  · exact hK.bind hleft fun _ => hK.bind (hK.lift _) fun _ => hK.fail _
  · exact hK.bind hleft fun _ => hK.bind hright fun _ =>
      hK.bind (hK.effect _) fun _ => hK.pure _
  · refine hK.bind (htruth hleft) fun bLeft => ?_
    split_ifs
    · exact hK.pure _
    · exact hK.bind (htruth hright) fun _ => hK.pure _
  · refine hK.bind (htruth hleft) fun bLeft => ?_
    split_ifs
    · exact hK.pure _
    · exact hK.bind (htruth hright) fun _ => hK.pure _
  · exact hK.bind hleft fun _ => hK.bind hright fun _ => hK.effect _

theorem ternaryOperator_keeps (hK : Composable K) {condition whenTrue whenFalse : ExprRun σ Bytes}
    (hcond : K condition) (htrue : K whenTrue) (hfalse : K whenFalse) :
    K (ternaryOperator condition whenTrue whenFalse) := by
  refine hK.bind hcond fun _ => hK.bind (hK.lift _) fun iCond => ?_
  split_ifs
  · exact htrue
  · exact hfalse

end Keeps

theorem exprEvalNode_keeps {K : ℕ → ∀ {α : Type}, ExprRun σ α → Prop}
    (hK : ∀ nExprDepth, Composable (K nExprDepth))
    (henter : ∀ nExprDepth node, K (nExprDepth + 1) (node (nExprDepth + 1)) →
      K nExprDepth (enterNode nExprDepth node)) :
    ∀ (n : Node Bytes) (nExprDepth : ℕ), K nExprDepth (exprEvalNode env n nExprDepth)
  | .leaf (.lit zValue), d => (hK d).bind ((hK d).effect _) fun _ => (hK d).effect _
  | .leaf (.op o), d => (hK d).bind ((hK d).effect _) fun _ => (hK d).effect _
  | .unary o pLeft, d =>
    (hK d).bind ((hK d).effect _) fun _ =>
      (hK d).bind (henter d _ (exprEvalNode_keeps hK henter pLeft (d + 1))) fun _ => (hK d).effect _
  | .binary o pLeft (.binary o' pTrue pFalse), d => by
    have hnode := fun n => henter d (exprEvalNode env n)
    refine (hK d).bind ((hK d).effect _) fun _ => ?_
    split_ifs
    · exact ternaryOperator_keeps (hK d) (hnode _ (exprEvalNode_keeps hK henter pLeft (d + 1)))
        (hnode _ (exprEvalNode_keeps hK henter pTrue (d + 1)))
        (hnode _ (exprEvalNode_keeps hK henter pFalse (d + 1)))
    · exact binaryOperator_keeps (hK d) (hnode _ (exprEvalNode_keeps hK henter pLeft (d + 1)))
        (hnode _ (exprEvalNode_keeps hK henter (.binary o' pTrue pFalse) (d + 1)))
  | .binary o pLeft (.leaf t), d =>
    (hK d).bind ((hK d).effect _) fun _ =>
      binaryOperator_keeps (hK d) (henter d _ (exprEvalNode_keeps hK henter pLeft (d + 1)))
        (henter d _ (exprEvalNode_keeps hK henter (.leaf t) (d + 1)))
  | .binary o pLeft (.unary o' n), d =>
    (hK d).bind ((hK d).effect _) fun _ =>
      binaryOperator_keeps (hK d) (henter d _ (exprEvalNode_keeps hK henter pLeft (d + 1)))
        (henter d _ (exprEvalNode_keeps hK henter (.unary o' n) (d + 1)))

section KeepsOne

variable {K : ∀ {α : Type}, ExprRun σ α → Prop} {f : Bytes → ExprRun σ Bytes} {nExprDepth : ℕ}

section

variable (hK : Composable K)

include hK

theorem evalArguments_keeps {zArgs : List Bytes}
    (h : ∀ zArg ∈ zArgs, K (f zArg)) : K (evalArguments f zArgs) := by
  induction zArgs with
  | nil => exact hK.pure _
  | cons zArg zArgs ih =>
    have hrest : K (evalArguments f zArgs) := ih fun z hz => h z (mem_cons_of_mem zArg hz)
    exact hK.bind (h zArg mem_cons_self) fun _ => hK.bind hrest fun _ => hK.pure _

theorem exprParseFrom_keeps {zExpr : Bytes} {skip : ℕ} {prevIsTerm : Bool}
    {z : Bytes} (h : ∀ zArg : Bytes, zArg.length < z.length → K (f zArg)) :
    K (exprParseFrom env f zExpr skip prevIsTerm z) := by
  induction z generalizing skip prevIsTerm with
  | nil => cases skip <;> exact hK.pure _
  | cons c rest ih =>
    have hrest : ∀ zArg : Bytes, zArg.length < rest.length → K (f zArg) :=
      fun zArg hlt => h zArg (Nat.lt_succ_of_lt hlt)
    cases skip with
    | succ skip => exact ih hrest
    | zero =>
      simp only [exprParseFrom]
      refine hK.bind (hK.effect _) fun _ => ?_
      split
      · exact hK.pure _
      · rename_i d z' hdrop
        have hle : (d :: z').length ≤ (c :: rest).length := by
          rw [← hdrop, length_drop]
          exact Nat.sub_le _ _
        refine hK.lift_bind fun r hr => ?_
        obtain ⟨t, n⟩ := r
        have htoken : K (tokenNode env f t) := by
          cases t with
          | lit zValue => exact hK.pure _
          | op o => exact hK.pure _
          | call zFunc zArgs =>
            refine hK.bind (evalArguments_keeps hK fun zArg hzArg => ?_) fun _ =>
              hK.bind (hK.effect _) fun _ => hK.pure _
            exact h zArg ((nextToken_length hr hzArg).trans_le hle)
        exact hK.bind htoken fun _ => hK.bind (ih hrest) fun _ => hK.pure _

theorem exprTree_keeps (hrefuse : K (refuse .refused tooDeep : ExprRun σ (Node Bytes))) (z : Bytes)
    (ts : List (Token Bytes)) : K (exprTree env z ts) := by
  unfold exprTree
  split_ifs
  · exact hK.fail _
  · split
    · split_ifs
      · exact hrefuse
      · exact hK.fail _
    · refine hK.bind (hK.effect _) fun _ => ?_
      split
      · exact hK.pure _
      · exact hK.fail _

theorem evalPieces_keeps {zs : List Bytes} (h : ∀ z ∈ zs, K (f z)) : K (evalPieces f zs) := by
  induction zs with
  | nil => exact hK.fail _
  | cons z zs ih =>
    cases zs with
    | nil => exact h z mem_cons_self
    | cons z' zs =>
      rw [evalPieces_cons]
      exact hK.bind (h z mem_cons_self) fun _ =>
        ih fun r hr => h r (mem_cons_of_mem z hr)

theorem exprBody_keeps {z : Bytes}
    (hparse : ∀ p : Bytes, p.length ≤ z.length →
      K (call (fun _ => Activity.parse) (exprParse env f p)))
    (hrefuse : K (refuse .refused tooDeep : ExprRun σ (Node Bytes)))
    (heval : ∀ n, K (exprEval env nExprDepth n)) :
    K (exprBody env f nExprDepth z) := by
  have hpiece : ∀ p : Bytes, p.length ≤ z.length → K (exprEvalOne env f nExprDepth p) :=
    fun p hp => hK.bind (hparse p hp) fun _ => hK.bind (exprTree_keeps hK hrefuse _ _) fun n =>
      hK.bind (heval n) fun _ => hK.pure _
  refine evalPieces_keeps hK fun p hp => hpiece p ?_
  split_ifs at hp
  · exact topPiecesWithin_length hp
  · rw [mem_singleton.mp hp]

end

end KeepsOne

theorem enterNode_reports (nExprDepth : ℕ) (node : ℕ → ExprRun σ Bytes)
    (h : Reports (· = .refused) (node (nExprDepth + 1))) :
    Reports (· = .refused) (enterNode nExprDepth node) := by
  unfold enterNode
  split_ifs
  · exact reports_refuse _ _ _
  · exact reports_call (fun _ => nofun) h

theorem exprEval_reports (nExprDepth : ℕ) (n : Node Bytes) :
    Reports (· = .refused) (exprEval env nExprDepth n) :=
  enterNode_reports nExprDepth _ (exprEvalNode_keeps (K := fun _ => Reports (· = .refused))
    (fun _ => composable_reports _) enterNode_reports n (nExprDepth + 1))

theorem exprBody_reports (nExprDepth : ℕ) (z : Bytes) :
    Reports (· = .refused) (exprBody env (expr env nExprDepth) nExprDepth z) := by
  induction hlen : z.length using Nat.strong_induction_on generalizing z with
  | _ len ih =>
    refine exprBody_keeps (composable_reports _) (fun p hp => reports_call (fun _ => nofun) ?_)
      (reports_refuse _ _ _) (exprEval_reports nExprDepth)
    refine exprParseFrom_keeps (composable_reports _) fun zArg hlt => ?_
    rw [expr_eq]
    exact reports_call (fun _ => nofun) (ih zArg.length (by omega) zArg rfl)

/-! ## One expression -/

section Depth

open Support.CallTree

variable (env) (nExprDepth : ℕ)

/-- The calls inside `Th8_Expr` on a text, from a state. -/
def inside (zExpr : Bytes) (s : σ) : List (CallTree (Activity σ)) :=
  (exprBody env (expr env nExprDepth) nExprDepth zExpr s).calls

/-- `Th8_Expr` on a text that is shorter. -/
def ArgumentOf (zExpr : Bytes) (t : CallTree (Activity σ)) : Prop :=
  ∃ (zArg : Bytes) (s : σ), zArg.length < zExpr.length ∧
    t = .node (.expr zArg s) (inside env nExprDepth zArg s)

/-- A recursion that the counter of `th8ExprEval` bounds. -/
def Counted (t : CallTree (Activity σ)) : Prop :=
  (t = .node .refused [] ∨ ∃ calls, t = .node .eval calls) ∧
    height Activity.weight t ≤ mxExprDepth - nExprDepth

/-- What is called inside `Th8_Expr`. -/
def PartOf (zExpr : Bytes) (t : CallTree (Activity σ)) : Prop :=
  (∃ calls, t = .node .parse calls ∧ ∀ u ∈ calls, ArgumentOf env nExprDepth zExpr u) ∨
    Counted nExprDepth t

variable {env} {nExprDepth}

theorem height_active {a : Activity σ} (ha : a ≠ .refused) (calls : List (CallTree (Activity σ))) :
    height Activity.weight (.node a calls) = heights Activity.weight calls + 1 := by
  have hweight : a.weight = 1 := by
    cases a with
    | refused => exact absurd rfl ha
    | _ => rfl
  rw [height, hweight, Nat.add_comm]

variable {calls : List (CallTree (Activity σ))}

theorem heights_active_lt {a : Activity σ} (ha : a ≠ .refused)
    {within : List (CallTree (Activity σ))} (hmem : .node a within ∈ calls) :
    heights Activity.weight within < heights Activity.weight calls := by
  have hle : height Activity.weight (.node a within) ≤ heights Activity.weight calls :=
    height_le_heights hmem
  rw [height_active ha] at hle
  exact hle

theorem height_refused :
    height Activity.weight (.node .refused [] : CallTree (Activity σ)) = 0 := rfl

theorem counted_refused : Counted nExprDepth (.node .refused [] : CallTree (Activity σ)) :=
  ⟨.inl rfl, height_refused.trans_le (Nat.zero_le _)⟩

theorem enterNode_counted (nExprDepth : ℕ) (node : ℕ → ExprRun σ Bytes)
    (h : Every (Counted (nExprDepth + 1)) (node (nExprDepth + 1))) :
    Every (Counted nExprDepth) (enterNode nExprDepth node) := by
  unfold enterNode
  split_ifs with hdepth
  · exact every_refuse counted_refused _
  · refine every_call fun s => ⟨.inr ⟨_, rfl⟩, ?_⟩
    have hle : heights Activity.weight (node (nExprDepth + 1) s).calls ≤
        mxExprDepth - (nExprDepth + 1) :=
      heights_le_iff.mpr fun t ht => (h s t ht).2
    rw [height_active (a := .eval) nofun]
    omega

theorem exprEval_counted (nExprDepth : ℕ) (n : Node Bytes) :
    Every (Counted nExprDepth) (exprEval env nExprDepth n) :=
  enterNode_counted nExprDepth _ (exprEvalNode_keeps (K := fun d => Every (Counted d))
    (fun _ => composable_every _) enterNode_counted n (nExprDepth + 1))

theorem exprBody_parts (nExprDepth : ℕ) (z : Bytes) :
    Every (PartOf env nExprDepth z) (exprBody env (expr env nExprDepth) nExprDepth z) := by
  refine exprBody_keeps (composable_every _) (fun p hp => every_call fun s => .inl ⟨_, rfl, ?_⟩)
    (every_refuse (.inr counted_refused) _)
    (fun n s t ht => .inr (exprEval_counted nExprDepth n s t ht))
  have hparse : Every (ArgumentOf env nExprDepth z) (exprParse env (expr env nExprDepth) p) := by
    refine exprParseFrom_keeps (composable_every _) fun zArg hlt => ?_
    rw [expr_eq]
    exact every_call fun s' => ⟨zArg, s', hlt.trans_le hp, rfl⟩
  exact hparse s

variable {z : Bytes} {s : σ}

theorem partOf_of_mem {t : CallTree (Activity σ)} (ht : t ∈ inside env nExprDepth z s) :
    PartOf env nExprDepth z t :=
  exprBody_parts nExprDepth z s t ht

theorem argumentOf_of_mem {t : CallTree (Activity σ)}
    (hparse : .node .parse calls ∈ inside env nExprDepth z s) (ht : t ∈ calls) :
    ArgumentOf env nExprDepth z t := by
  obtain ⟨calls', heq, hall⟩ | ⟨heq | ⟨calls', heq⟩, -⟩ := partOf_of_mem hparse
  · cases heq
    exact hall t ht
  · cases heq
  · cases heq

theorem topPiecesWithin_ne_nil (rounds : ℕ) (z : Bytes) : topPiecesWithin rounds z ≠ [] := by
  cases rounds with
  | zero => exact cons_ne_nil _ _
  | succ rounds =>
    rw [topPiecesWithin]
    split
    · exact cons_ne_nil _ _
    · exact cons_ne_nil _ _

theorem exists_parse_mem (env : ExprEnv σ) (nExprDepth : ℕ) (z : Bytes) (s : σ) :
    ∃ calls, .node .parse calls ∈ inside env nExprDepth z s := by
  have hone : ∀ (p : Bytes) (s : σ), ∃ calls,
      .node .parse calls ∈ (exprEvalOne env (expr env nExprDepth) nExprDepth p s).calls :=
    fun p s => ⟨_, mem_calls_bind (mem_singleton_self _) _⟩
  have hpieces : ∀ ps : List Bytes, ps ≠ [] → ∃ calls, .node .parse calls ∈
      (evalPieces (exprEvalOne env (expr env nExprDepth) nExprDepth) ps s).calls := by
    intro ps hps
    match ps with
    | [] => exact absurd rfl hps
    | [p] => exact hone p s
    | p :: q :: ps =>
      obtain ⟨calls, hmem⟩ := hone p s
      exact ⟨calls, mem_calls_bind hmem _⟩
  refine hpieces _ ?_
  split_ifs
  · exact topPiecesWithin_ne_nil _ z
  · exact cons_ne_nil _ _

/-! ## Chains of calls -/

variable (env) (nExprDepth) in
/-- So many calls, each in an argument of the one before, lead from an expression and a state
to the argument of the last one and the state that it is evaluated from. -/
inductive CallChain : ℕ → Bytes → σ → Bytes → σ → Prop
  | here (zExpr : Bytes) (s : σ) : CallChain 0 zExpr s zExpr s
  | argument {n : ℕ} {zExpr zArg z' : Bytes} {s sArg s' : σ}
      {calls within : List (CallTree (Activity σ))} :
      .node .parse calls ∈ inside env nExprDepth zExpr s →
      .node (.expr zArg sArg) within ∈ calls →
      CallChain n zArg sArg z' s' → CallChain (n + 1) zExpr s z' s'

theorem CallChain.add_le {n : ℕ} {z' : Bytes} {s' : σ} (h : CallChain env nExprDepth n z s z' s') :
    2 * n + heights Activity.weight (inside env nExprDepth z' s') ≤
      heights Activity.weight (inside env nExprDepth z s) := by
  induction h with
  | here z s => omega
  | @argument n z zArg z' s sArg s' calls within hparse harg _ ih =>
    obtain ⟨zArg', s₁, -, heq⟩ := argumentOf_of_mem hparse harg
    cases heq
    have hparseLt := heights_active_lt (a := .parse) nofun hparse
    have hargLt := heights_active_lt (a := .expr zArg sArg) nofun harg
    omega

def ChainsWithin (env : ExprEnv σ) (nExprDepth bound : ℕ) (zExpr : Bytes) (s : σ) : Prop :=
  ∀ n z' s', CallChain env nExprDepth n zExpr s z' s' → 2 * n + 1 ≤ bound ∧
    ∀ calls, .node .eval calls ∈ inside env nExprDepth z' s' →
      2 * n + (heights Activity.weight calls + 1) ≤ bound

variable {zExpr : Bytes}

theorem ChainsWithin.argument {bound : ℕ} {zArg : Bytes} {sArg : σ}
    {within : List (CallTree (Activity σ))} (h : ChainsWithin env nExprDepth bound zExpr s)
    (hparse : .node .parse calls ∈ inside env nExprDepth zExpr s)
    (harg : .node (.expr zArg sArg) within ∈ calls) :
    ChainsWithin env nExprDepth (bound - 2) zArg sArg := by
  intro n z' s' hchain
  obtain ⟨hlength, heval⟩ := h (n + 1) z' s' (.argument hparse harg hchain)
  refine ⟨by omega, fun calls' hmem => ?_⟩
  have hle := heval calls' hmem
  omega

theorem heights_le_iff_chainsWithin {bound : ℕ} :
    heights Activity.weight (inside env nExprDepth zExpr s) ≤ bound ↔
      ChainsWithin env nExprDepth bound zExpr s := by
  constructor
  · intro h n z' s' hchain
    have hadd := hchain.add_le
    obtain ⟨calls, hparse⟩ := exists_parse_mem env nExprDepth z' s'
    have hparseLt := heights_active_lt (a := .parse) nofun hparse
    refine ⟨by omega, fun calls' heval => ?_⟩
    have hevalLt := heights_active_lt (a := .eval) nofun heval
    omega
  · induction hlen : zExpr.length using Nat.strong_induction_on generalizing zExpr s bound with
    | _ len ih =>
      intro h
      obtain ⟨hbound, heval⟩ := h 0 zExpr s (.here zExpr s)
      refine heights_le_iff.mpr fun t ht => ?_
      obtain ⟨calls, rfl, hargs⟩ | ⟨rfl | ⟨calls, rfl⟩, -⟩ := partOf_of_mem ht
      · have hcalls : heights Activity.weight calls ≤ bound - 1 := by
          refine heights_le_iff.mpr fun u hu => ?_
          obtain ⟨zArg, sArg, hlt, rfl⟩ := hargs u hu
          have hwithin := h.argument ht hu
          have hle := ih zArg.length (by omega) rfl hwithin
          obtain ⟨hone, -⟩ := h 1 zArg sArg (.argument ht hu (.here zArg sArg))
          rw [height_active (a := .expr zArg sArg) nofun]
          omega
        rw [height_active (a := .parse) nofun]
        omega
      · exact height_refused.trans_le (Nat.zero_le _)
      · have hle := heval calls ht
        rw [height_active (a := .eval) nofun]
        omega

variable (env) (nExprDepth) in
/-- The activations inside `Th8_Expr` on a text are never more than `TH8_MX_EXPR_DEPTH` at a
time, and where a recursion is refused the expression has no value. -/
structure NestingBounded (zExpr : Bytes) (s : σ) : Prop where
  nested : heights Activity.weight (inside env nExprDepth zExpr s) ≤ mxExprDepth
  error : AnyMentions (· = .refused) (inside env nExprDepth zExpr s) →
    ∃ e, (exprBody env (expr env nExprDepth) nExprDepth zExpr s).result = .error e

variable (env) (nExprDepth) in
/-- A chain of calls and the evaluation of the tree at its end, where there is one, keep
below `TH8_MX_EXPR_DEPTH` together, if each call counts twice. -/
def CallsWithin (zExpr : Bytes) (s : σ) : Prop :=
  ∀ n z' s', CallChain env nExprDepth (n + 1) zExpr s z' s' → 2 * (n + 1) + 1 ≤ mxExprDepth ∧
    ∀ calls, .node .eval calls ∈ inside env nExprDepth z' s' →
      2 * (n + 1) + (heights Activity.weight calls + 1) ≤ mxExprDepth

theorem chainsWithin_iff_callsWithin :
    ChainsWithin env nExprDepth mxExprDepth zExpr s ↔ CallsWithin env nExprDepth zExpr s := by
  constructor
  · intro h n z' s' hchain
    exact h (n + 1) z' s' hchain
  · intro h n z' s' hchain
    cases n with
    | succ n => exact h n z' s' hchain
    | zero =>
      cases hchain
      refine ⟨by decide, fun calls heval => ?_⟩
      obtain ⟨calls', heq, -⟩ | ⟨-, hle⟩ := partOf_of_mem heval
      · cases heq
      · rw [height_active (a := .eval) nofun] at hle
        omega

end Depth

/-! ## Calls in calls -/

section Nested

/-- `abs(abs(...abs(1)...))`. -/
def nestedCalls : ℕ → Bytes
  | 0 => ascii "1"
  | n + 1 => ascii "abs" ++ chOpenParen :: (nestedCalls n ++ [chCloseParen])

theorem level_nestedCalls (n k : ℕ) : callDelimiters.level k (nestedCalls n) = some k := by
  induction n generalizing k with
  | zero => rfl
  | succ n ih =>
    have hname : callDelimiters.level k (ascii "abs") = some k := rfl
    have hopen (z : Bytes) :
        callDelimiters.level k (chOpenParen :: z) = callDelimiters.level (k + 1) z :=
      Delimiters.level_cons (Delimiters.step_opener k) z
    have hclose : callDelimiters.level (k + 1) [chCloseParen] = some k :=
      Delimiters.level_cons (Delimiters.step_closer_succ k) []
    rw [nestedCalls, Delimiters.level_append, hname, Option.bind_some, hopen,
      Delimiters.level_append, ih (k + 1), Option.bind_some, hclose]

theorem comma_notMem_nestedCalls (n : ℕ) : chComma ∉ nestedCalls n := by
  induction n with
  | zero => decide
  | succ n ih =>
    have hname : chComma ∉ ascii "abs" := by decide
    simp [nestedCalls, hname, ih, chComma, chOpenParen, chCloseParen]

theorem nestedCalls_ne_nil (n : ℕ) : nestedCalls n ≠ [] := by
  cases n <;> simp [nestedCalls, ascii]

theorem callArguments_nestedCalls (n : ℕ) :
    callArguments (nestedCalls n ++ [chCloseParen]) = some ([nestedCalls n], []) := by
  refine callArguments_eq_some_iff.mpr ⟨level_nestedCalls n 0, ?_⟩
  unfold splitArguments
  split
  · rename_i zArg1 zArg2 hsplit
    have hcomma : chComma ∈ nestedCalls n := by
      rw [Delimiters.splitSeparator_text hsplit]
      exact mem_append_right _ mem_cons_self
    exact absurd hcomma (comma_notMem_nestedCalls n)
  · rw [if_neg (nestedCalls_ne_nil n)]

theorem nextToken_nestedCalls (features : ExprFeatures) (isWord : Bytes → Bool) (zExpr : Bytes)
    (n : ℕ) : nextToken features isWord zExpr false (nestedCalls (n + 1)) =
      .ok (.call (ascii "abs") [nestedCalls n], (nestedCalls (n + 1)).length) := by
  have hoperator : matchOperator features false (nestedCalls (n + 1)) = none :=
    matchOperator_eq_none (c := 0x61) (by decide) features false _
  have hdelimited : delimitedOperand (nestedCalls (n + 1)) = none := rfl
  have hname : (nestedCalls (n + 1)).takeWhile isAlnum = ascii "abs" := rfl
  have hword : wordToken isWord zExpr (nestedCalls (n + 1)) =
      .ok (.call (ascii "abs") [nestedCalls n], (nestedCalls (n + 1)).length) := by
    have hparen : (nestedCalls (n + 1)).drop (ascii "abs").length =
        chOpenParen :: (nestedCalls n ++ [chCloseParen]) := rfl
    unfold wordToken
    simp only [hname, hparen, callArguments_nestedCalls]
    rfl
  unfold nextToken
  simp only [hdelimited, hoperator, hword]
  rfl

theorem topPieces_nestedCalls (n : ℕ) : topPieces (nestedCalls n) = [nestedCalls n] := by
  apply topPieces_of_none
  cases hfind : findTopComma (nestedCalls n) with
  | none => rfl
  | some r =>
    refine absurd ?_ (comma_notMem_nestedCalls n)
    rw [(findTopComma_eq_some.mp hfind).1]
    exact mem_append_right _ mem_cons_self

theorem exprParseFrom_length (expr : Bytes → ExprRun σ Bytes) (zExpr rest : Bytes)
    (prevIsTerm : Bool) : exprParseFrom env expr zExpr rest.length prevIsTerm rest = pure [] := by
  induction rest with
  | nil => rfl
  | cons c rest ih => exact ih

theorem exprParse_nestedCalls {expr : Bytes → ExprRun σ Bytes} {s : σ}
    (hready : (env.ready s).1 = .ok ()) (n : ℕ) :
    exprParse env expr (nestedCalls (n + 1)) s =
      (tokenNode env expr (.call (ascii "abs") [nestedCalls n]) >>= fun node => pure [node])
        (env.ready s).2 := by
  have htoken := nextToken_nestedCalls env.features env.isWord (nestedCalls (n + 1)) n
  have hfrom : exprParse env expr (nestedCalls (n + 1)) = (effect env.ready >>= fun _ =>
      lift (nextToken env.features env.isWord (nestedCalls (n + 1)) false (nestedCalls (n + 1))) >>=
        fun r => tokenNode env expr r.1 >>= fun node =>
          exprParseFrom env expr (nestedCalls (n + 1)) (0 + r.2 - 1) r.1.isTerm
            (nestedCalls (n + 1)).tail >>= fun nodes => pure (node :: nodes)) := rfl
  rw [hfrom, htoken, bind_ok hready, bind_ok rfl]
  simp only [Nat.zero_add]
  rw [← length_tail, exprParseFrom_length]
  rfl

theorem argument_nestedCalls (hready : ∀ s, (env.ready s).1 = .ok ()) (nExprDepth n : ℕ) (s : σ) :
    ∃ calls sArg, .node .parse calls ∈ inside env nExprDepth (nestedCalls (n + 1)) s ∧
      .node (.expr (nestedCalls n) sArg) (inside env nExprDepth (nestedCalls n) sArg) ∈ calls := by
  have hargument (s : σ) :
      .node (.expr (nestedCalls n) s) (inside env nExprDepth (nestedCalls n) s) ∈
        (tokenNode env (expr env nExprDepth) (.call (ascii "abs") [nestedCalls n]) s).calls := by
    apply mem_calls_bind
    apply mem_calls_bind
    rw [expr_eq]
    exact mem_singleton_self _
  have hparse : .node (.expr (nestedCalls n) (env.ready s).2)
      (inside env nExprDepth (nestedCalls n) (env.ready s).2) ∈
        (exprParse env (expr env nExprDepth) (nestedCalls (n + 1)) s).calls := by
    rw [exprParse_nestedCalls (hready s)]
    exact mem_calls_bind (hargument (env.ready s).2) _
  refine ⟨_, (env.ready s).2, ?_, hparse⟩
  unfold inside exprBody
  rw [topPieces_nestedCalls, ite_self]
  exact mem_calls_bind (mem_singleton_self _) _

theorem callChain_nestedCalls (hready : ∀ s, (env.ready s).1 = .ok ()) (nExprDepth n : ℕ) (s : σ) :
    ∃ s', CallChain env nExprDepth n (nestedCalls n) s (ascii "1") s' := by
  induction n generalizing s with
  | zero => exact ⟨s, .here (ascii "1") s⟩
  | succ n ih =>
    obtain ⟨calls, sArg, hparse, harg⟩ := argument_nestedCalls hready nExprDepth n s
    obtain ⟨s', hchain⟩ := ih sArg
    exact ⟨s', .argument hparse harg hchain⟩

theorem lt_heights_nestedCalls (hready : ∀ s, (env.ready s).1 = .ok ()) (nExprDepth n : ℕ) (s : σ) :
    2 * n < CallTree.heights Activity.weight (inside env nExprDepth (nestedCalls n) s) := by
  obtain ⟨s', hchain⟩ := callChain_nestedCalls hready nExprDepth n s
  obtain ⟨hlength, -⟩ := heights_le_iff_chainsWithin.mp le_rfl n _ _ hchain
  exact hlength

/-- An interpreter in which nothing is in the way, with the value of `abs` on what is not
negative. -/
def plainEnv : ExprEnv Unit where
  features := ⟨false, false⟩
  isWord _ := false
  ready s := (.ok (), s)
  treeReady _ s := (.ok (), s)
  substWord zWord s := (.ok zWord, s)
  toBoolean _ s := (.error .silent, s)
  setVar _ _ s := (.error .silent, s)
  operator _ _ _ s := (.error .silent, s)
  evalFunc _ zArg1 _ s := (.ok (zArg1.getD []), s)
  decimalForm zRes := zRes

end Nested

end ExprCalls

end Th8
