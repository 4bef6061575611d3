import Th8.Expr.TopComma
import Th8.Support.CallTree

/-!
# The nesting of expressions

`Th8_Expr` parses an expression, builds its tree and evaluates the tree.  `th8ExprEval` counts
how deep it is in the tree.  The arguments of a function are evaluated by `Th8_Expr` while the
expression around the call is still being parsed, and nothing counts how deep they are.
-/

namespace Th8

open Expr Support.Caller List
open Support (CallTree Caller Delimiters Ended)

namespace ExprCalls

variable {σ : Type}

/-- A step that activates neither `Th8_Expr` nor a parse or an evaluation. -/
abbrev Effect (σ α : Type) : Type := σ → Except Failure α × σ

/-- What the functions under an expression call besides each other, where no script command
is run: `Th8_Ready` (in the tree builder once for each pair of brackets), `th8SubstWord` with
the normal form of numbers, `Th8_ToBoolean`, `Th8_SetVar`, the operators on operands that have
been evaluated, `th8ExprEvalFunc`, and the decimal form of a result. -/
structure ExprEnv (σ : Type) where
  features : ExprFeatures
  isWord : Bytes → Bool
  ready : Effect σ Unit
  treeReady : List (Token Bytes) → Effect σ Unit
  substWord : Bytes → Effect σ Bytes
  toBoolean : Bytes → Effect σ Bool
  setVar : Bytes → Bytes → Effect σ Unit
  operator : Op → Option Bytes → Option Bytes → Effect σ Bytes
  evalFunc : Bytes → Option Bytes → Option Bytes → Effect σ Bytes
  decimalForm : Bytes → Bytes

/-- What can be active: `Th8_Expr` on a text, from a state, `th8ExprParse`, and `th8ExprEval`;
or where the one or the other recursion is refused. -/
inductive Activity (σ : Type) where
  | expr (zExpr : Bytes) (s : σ)
  | parse
  | eval
  | refused

def Activity.weight : Activity σ → ℕ
  | .refused => 0
  | _ => 1

abbrev ExprRun (σ α : Type) : Type := Caller (Activity σ) σ Failure α

def tooDeep : Failure := .static "expression nested too deeply"

/-- The wrapper `th8ExprEval`, at a value of `nExprDepth`. -/
def enterNode (nExprDepth : ℕ) (node : ℕ → ExprRun σ Bytes) : ExprRun σ Bytes :=
  if mxExprDepth ≤ nExprDepth then refuse .refused tooDeep
  else call (fun _ => .eval) (node (nExprDepth + 1))

section Evaluation

variable (env : ExprEnv σ)

/-- An operator of two operands.  The logical ones may leave out the right one.  A conditional
without its two branches fails behind its condition. -/
def binaryOperator (o : Op) (left right : ExprRun σ Bytes) : ExprRun σ Bytes :=
  match o with
  | .ternaryQ => do
    let zCond ← left
    let _ ← lift (parseWideInt zCond)
    fail (.static "syntax error in ternary expression")
  | .varAssign => do
    let zVarName ← left
    let zRhs ← right
    effect (env.setVar zVarName zRhs)
    pure zRhs
  | .logicalAnd => do
    let bLeft ← (left >>= fun zL => effect (env.toBoolean zL))
    if !bLeft then pure (ascii "0")
    else do
      let bRight ← (right >>= fun zR => effect (env.toBoolean zR))
      pure (if bRight then ascii "1" else ascii "0")
  | .logicalOr => do
    let bLeft ← (left >>= fun zL => effect (env.toBoolean zL))
    if bLeft then pure (ascii "1")
    else do
      let bRight ← (right >>= fun zR => effect (env.toBoolean zR))
      pure (if bRight then ascii "1" else ascii "0")
  | o => do
    let zLeft ← left
    let zRight ← right
    effect (env.operator o (some zLeft) (some zRight))

def ternaryOperator (condition whenTrue whenFalse : ExprRun σ Bytes) : ExprRun σ Bytes := do
  let zCond ← condition
  let iCond ← lift (parseWideInt zCond)
  if iCond ≠ 0 then whenTrue else whenFalse

def exprEvalNode : Node Bytes → ℕ → ExprRun σ Bytes
  | .leaf (.lit zValue), _ => do
    effect env.ready
    effect (env.substWord zValue)
  | .leaf (.op o), _ => do
    effect env.ready
    effect (env.operator o none none)
  | .unary o pLeft, nExprDepth => do
    effect env.ready
    let zLeft ← enterNode nExprDepth (exprEvalNode pLeft)
    effect (env.operator o (some zLeft) none)
  | .binary o pLeft (.binary o' pTrue pFalse), nExprDepth => do
    effect env.ready
    if o = .ternaryQ ∧ o' = .ternaryC then
      ternaryOperator (enterNode nExprDepth (exprEvalNode pLeft))
        (enterNode nExprDepth (exprEvalNode pTrue)) (enterNode nExprDepth (exprEvalNode pFalse))
    else
      binaryOperator env o (enterNode nExprDepth (exprEvalNode pLeft))
        (enterNode nExprDepth (exprEvalNode (.binary o' pTrue pFalse)))
  | .binary o pLeft pRight, nExprDepth => do
    effect env.ready
    binaryOperator env o (enterNode nExprDepth (exprEvalNode pLeft))
      (enterNode nExprDepth (exprEvalNode pRight))

def exprEval (nExprDepth : ℕ) (n : Node Bytes) : ExprRun σ Bytes :=
  enterNode nExprDepth (exprEvalNode env n)

end Evaluation

section Parsing

variable (env : ExprEnv σ)

def evalArguments (expr : Bytes → ExprRun σ Bytes) : List Bytes → ExprRun σ (List Bytes)
  | [] => pure []
  | zArg :: zArgs => do
    let v ← expr zArg
    let vs ← evalArguments expr zArgs
    pure (v :: vs)

def tokenNode (expr : Bytes → ExprRun σ Bytes) : Lexeme → ExprRun σ (Token Bytes)
  | .lit zValue => pure (.lit zValue)
  | .op o => pure (.op o)
  | .call zFunc zArgs => do
    let vals ← evalArguments expr zArgs
    let zRes ← effect (env.evalFunc zFunc vals[0]? vals[1]?)
    pure (.lit zRes)

/-- The loop of `th8ExprParse`, `skip` more bytes behind the head of the text. -/
def exprParseFrom (expr : Bytes → ExprRun σ Bytes) (zExpr : Bytes) :
    ℕ → Bool → Bytes → ExprRun σ (List (Token Bytes))
  | _, _, [] => pure []
  | skip + 1, prevIsTerm, _ :: rest => exprParseFrom expr zExpr skip prevIsTerm rest
  | 0, prevIsTerm, c :: rest => do
    effect env.ready
    let blanks := blankLength (c :: rest)
    match (c :: rest).drop blanks with
    | [] => pure []
    | z@(_ :: _) =>
      let (t, n) ← lift (nextToken env.features env.isWord zExpr prevIsTerm z)
      let node ← tokenNode env expr t
      let nodes ← exprParseFrom expr zExpr (blanks + n - 1) t.isTerm rest
      pure (node :: nodes)

def exprParse (expr : Bytes → ExprRun σ Bytes) (z : Bytes) : ExprRun σ (List (Token Bytes)) :=
  exprParseFrom env expr z 0 false z

/-- The tree of the tokens.  Any failure of the tree builder but its depth limit is reported
as a syntax error. -/
def exprTree (z : Bytes) (ts : List (Token Bytes)) : ExprRun σ (Node Bytes) :=
  let syntaxError : Failure := .message "syntax error in expression: \"" z
  if ts = [] then fail syntaxError
  else
    match makeTree ts with
    | .error e => if e = tooDeep then refuse .refused tooDeep else fail syntaxError
    | .ok slots => do
      effect fun s =>
        match env.treeReady ts s with
        | (.ok u, s') => (.ok u, s')
        | (.error _, s') => (.error syntaxError, s')
      match slots with
      | some n :: _ => pure n
      -- the builder leaves a node in the first slot
      | _ => fail .silent

def exprEvalOne (expr : Bytes → ExprRun σ Bytes) (nExprDepth : ℕ) (z : Bytes) :
    ExprRun σ Bytes := do
  let ts ← call (fun _ => .parse) (exprParse env expr z)
  let n ← exprTree env z ts
  let zRes ← exprEval env nExprDepth n
  pure (env.decimalForm zRes)

def evalPieces (evalOne : Bytes → ExprRun σ Bytes) : List Bytes → ExprRun σ Bytes
  | [] => fail .silent
  | [z] => evalOne z
  | z :: zs => evalOne z >>= fun _ => evalPieces evalOne zs

/-- The body of `Th8_Expr` on a clean text. -/
def exprBody (expr : Bytes → ExprRun σ Bytes) (nExprDepth : ℕ) (z : Bytes) : ExprRun σ Bytes :=
  evalPieces (exprEvalOne env expr nExprDepth) (if env.features.topComma then topPieces z else [z])

/-- `Th8_Expr`, with so many levels of arguments. -/
def exprWithin : ℕ → ℕ → Bytes → ExprRun σ Bytes
  | 0, _, _ => fail .silent
  | levels + 1, nExprDepth, z =>
    call (.expr z) (exprBody env (exprWithin levels nExprDepth) nExprDepth z)

/-- `Th8_Expr`.  An argument is shorter than the expression that contains it. -/
def expr (nExprDepth : ℕ) (z : Bytes) : ExprRun σ Bytes :=
  exprWithin env (z.length + 1) nExprDepth z

end Parsing

variable {zArg : Bytes}

theorem splitArguments_length {b : Bytes} (h : zArg ∈ splitArguments b) :
    zArg.length ≤ b.length := by
  unfold splitArguments at h
  split at h
  · rename_i zArg1 zArg2 hsplit
    have htext := Delimiters.splitSeparator_text hsplit
    rw [htext, length_append, length_cons]
    obtain rfl | rfl : zArg = zArg1 ∨ zArg = zArg2 := by simpa using h
    · omega
    · omega
  · split_ifs at h
    · exact absurd h not_mem_nil
    · rw [mem_singleton.mp h]

variable {z : Bytes} {zArgs : List Bytes}

theorem callArguments_length {rest : Bytes} (h : callArguments z = some (zArgs, rest))
    (hzArg : zArg ∈ zArgs) :
    zArg.length < z.length := by
  obtain ⟨⟨b, rest'⟩, hclose, heq⟩ := Option.map_eq_some_iff.mp h
  cases heq
  have htext := (Delimiters.splitClose_eq_some_iff.mp hclose).1
  have hle : zArg.length ≤ b.length := splitArguments_length hzArg
  rw [htext, length_append, length_cons]
  omega

theorem wordToken_length {isWord : Bytes → Bool} {zExpr zFunc : Bytes} {n : ℕ}
    (h : wordToken isWord zExpr z = .ok (.call zFunc zArgs, n)) (hzArg : zArg ∈ zArgs) :
    zArg.length < z.length := by
  have hword : ∀ zName, wordToken.word isWord zName ≠ .ok (.call zFunc zArgs, n) := by
    intro zName hcall
    unfold wordToken.word at hcall
    split_ifs at hcall
    cases hcall
  unfold wordToken at h
  simp only at h
  split_ifs at h with hname
  split at h
  · exact absurd h (hword _)
  · rename_i c rest hdrop
    split_ifs at h with hparen
    · split at h
      · cases h
      · rename_i zArgs' rest' hargs
        cases h
        have hlt := callArguments_length hargs hzArg
        have hle := congrArg List.length hdrop
        rw [length_drop, length_cons] at hle
        omega
    · exact absurd h (hword _)

theorem nextToken_length {features : ExprFeatures} {isWord : Bytes → Bool} {prevIsTerm : Bool}
    {zExpr zFunc : Bytes} {n : ℕ}
    (h : nextToken features isWord zExpr prevIsTerm z = .ok (.call zFunc zArgs, n))
    (hzArg : zArg ∈ zArgs) : zArg.length < z.length := by
  unfold nextToken at h
  simp only at h
  split_ifs at h
  · cases h
  · cases h
  · split at h
    · cases h
    · cases h
    · split at h
      · cases h
      · exact wordToken_length h hzArg

theorem topPiecesWithin_length {rounds : ℕ} {p : Bytes} (h : p ∈ topPiecesWithin rounds z) :
    p.length ≤ z.length := by
  induction rounds generalizing z with
  | zero => rw [mem_singleton.mp h]
  | succ rounds ih =>
    rw [topPiecesWithin] at h
    cases hfind : findTopComma z with
    | none =>
      rw [hfind] at h
      rw [mem_singleton.mp h]
    | some q =>
      rw [hfind] at h
      have htext := congrArg List.length (findTopComma_eq_some.mp hfind).1
      rw [length_append, length_cons] at htext
      obtain rfl | hrest := mem_cons.mp h
      · omega
      · have hle := ih hrest
        omega

/-! ## The levels do not run out -/

section Levels

variable {env : ExprEnv σ} {f g : Bytes → ExprRun σ Bytes} {nExprDepth : ℕ}

theorem evalArguments_congr {zArgs : List Bytes} (h : ∀ zArg ∈ zArgs, f zArg = g zArg) :
    evalArguments f zArgs = evalArguments g zArgs := by
  induction zArgs with
  | nil => rfl
  | cons zArg zArgs ih =>
    rw [evalArguments, evalArguments, h zArg mem_cons_self,
      ih fun z hz => h z (mem_cons_of_mem zArg hz)]

variable {z : Bytes}

theorem exprParseFrom_congr {zExpr : Bytes} {skip : ℕ} {prevIsTerm : Bool}
    (h : ∀ zArg : Bytes, zArg.length < z.length → f zArg = g zArg) :
    exprParseFrom env f zExpr skip prevIsTerm z = exprParseFrom env g zExpr skip prevIsTerm z := by
  induction z generalizing skip prevIsTerm with
  | nil => cases skip <;> rfl
  | cons c rest ih =>
    have hrest : ∀ zArg : Bytes, zArg.length < rest.length → f zArg = g zArg :=
      fun zArg hlt => h zArg (Nat.lt_succ_of_lt hlt)
    cases skip with
    | succ skip => exact ih hrest
    | zero =>
      simp only [exprParseFrom]
      refine congrArg (effect env.ready >>= ·) (funext fun _ => ?_)
      split
      · rfl
      · rename_i d z' hdrop
        have hle : (d :: z').length ≤ (c :: rest).length := by
          rw [← hdrop, length_drop]
          exact Nat.sub_le _ _
        refine lift_bind_congr fun r hr => ?_
        obtain ⟨t, n⟩ := r
        have htoken : tokenNode env f t = tokenNode env g t := by
          cases t with
          | lit zValue => rfl
          | op o => rfl
          | call zFunc zArgs =>
            rw [tokenNode, tokenNode, evalArguments_congr fun zArg hzArg =>
              h zArg ((nextToken_length hr hzArg).trans_le hle)]
        simp only [htoken, ih hrest]

theorem evalPieces_singleton (evalOne : Bytes → ExprRun σ Bytes) (p : Bytes) :
    evalPieces evalOne [p] = evalOne p := rfl

theorem evalPieces_cons (evalOne : Bytes → ExprRun σ Bytes) (p q : Bytes) (ps : List Bytes) :
    evalPieces evalOne (p :: q :: ps) = (evalOne p >>= fun _ => evalPieces evalOne (q :: ps)) := rfl

theorem exprBody_congr (h : ∀ zArg : Bytes, zArg.length < z.length → f zArg = g zArg) :
    exprBody env f nExprDepth z = exprBody env g nExprDepth z := by
  have hpieces : ∀ ps : List Bytes, (∀ p ∈ ps, p.length ≤ z.length) →
      evalPieces (exprEvalOne env f nExprDepth) ps =
        evalPieces (exprEvalOne env g nExprDepth) ps := by
    intro ps hps
    induction ps with
    | nil => rw [evalPieces, evalPieces]
    | cons p ps ih =>
      have hone : exprEvalOne env f nExprDepth p = exprEvalOne env g nExprDepth p := by
        rw [exprEvalOne, exprEvalOne, exprParse, exprParse, exprParseFrom_congr fun zArg hlt =>
          h zArg (hlt.trans_le (hps p mem_cons_self))]
      cases ps with
      | nil => rw [evalPieces_singleton, evalPieces_singleton, hone]
      | cons q ps =>
        rw [evalPieces_cons, evalPieces_cons, hone, ih fun r hr => hps r (mem_cons_of_mem p hr)]
  rw [exprBody, exprBody]
  refine hpieces _ fun p hp => ?_
  split_ifs at hp
  · exact topPiecesWithin_length hp
  · rw [mem_singleton.mp hp]

theorem exprWithin_eq {m n : ℕ} (hm : z.length < m) (hn : z.length < n) :
    exprWithin env m nExprDepth z = exprWithin env n nExprDepth z := by
  induction m generalizing n z with
  | zero => omega
  | succ m ih =>
    cases n with
    | zero => omega
    | succ n =>
      have hbody : exprBody env (exprWithin env m nExprDepth) nExprDepth z =
          exprBody env (exprWithin env n nExprDepth) nExprDepth z :=
        exprBody_congr fun zArg hlt => ih (by omega) (by omega)
      rw [exprWithin, exprWithin, hbody]

theorem expr_eq (z : Bytes) :
    expr env nExprDepth z = call (.expr z) (exprBody env (expr env nExprDepth) nExprDepth z) := by
  have hbody : exprBody env (exprWithin env z.length nExprDepth) nExprDepth z =
      exprBody env (expr env nExprDepth) nExprDepth z :=
    exprBody_congr fun zArg hlt => exprWithin_eq hlt (Nat.lt_succ_self zArg.length)
  rw [expr, exprWithin, hbody]

end Levels

end ExprCalls

end Th8
