import Mathlib.Data.List.Range
import Th8.Core.Value
import Th8.Support.Binding
import Th8.Support.Outcome

/-!
# The tree of an expression

`th8ExprMakeTree` turns the array of tokens into a tree.  It goes over the array in
phases: brackets, unary operators, binary operators by precedence, the conditional
operator and assignment.  An operator that has taken its operands leaves their slots
empty, and what is left in the first slot is the tree.
-/

namespace Th8.Expr

open Support

/-- The operators of `th8Operators`. -/
inductive Op where
  | openBracket | closeBracket
  | unaryMinus | unaryPlus | bitwiseNot | logicalNot
  | exponent
  | leftShift | rightShift
  | le | ge | eq | ne
  | seq | sne | isIn | ni
  | logicalAnd | logicalOr
  | varAssign
  | multiply | divide | modulus
  | add | subtract
  | lt | gt
  | bitwiseAnd | bitwiseXor | bitwiseOr
  | ternaryQ | ternaryC
deriving DecidableEq

/-- The column `iPrecedence` of `th8Operators`. -/
def iPrecedence : Op → ℤ
  | .openBracket | .closeBracket => -1
  | .unaryMinus | .unaryPlus | .bitwiseNot | .logicalNot => 1
  | .exponent => 2
  | .multiply | .divide | .modulus => 3
  | .add | .subtract => 4
  | .leftShift | .rightShift => 5
  | .lt | .gt | .le | .ge => 6
  | .eq | .ne => 7
  | .seq | .sne | .isIn | .ni => 8
  | .bitwiseAnd => 9
  | .bitwiseXor => 10
  | .bitwiseOr => 11
  | .logicalAnd => 12
  | .logicalOr => 13
  | .ternaryQ | .ternaryC => 14
  | .varAssign => 15

variable {α : Type}

/-- A node as `th8ExprParse` makes it: an operand with its text, or an operator. -/
inductive Token (α : Type) where
  | lit (a : α)
  | op (o : Op)
deriving DecidableEq

/-- `Th8_ExprNode`: without operands, or with `pLeft`, or with both. -/
inductive Node (α : Type) where
  | leaf (t : Token α)
  | unary (o : Op) (pLeft : Node α)
  | binary (o : Op) (pLeft pRight : Node α)
deriving DecidableEq

/-- `TH8_ISTERM` of a slot that is not empty. -/
def isTerm : Node α → Bool
  | .leaf (.lit _) => true
  | .leaf (.op _) => false
  | .unary _ _ => true
  | .binary _ _ _ => true

abbrev Slots (α : Type) := List (Option (Node α))

/-! ## The phases -/

def matchBracket (nNest : ℕ) : List (Token α) → Option (List (Token α) × List (Token α))
  | [] => none
  | .op .openBracket :: ts =>
    (matchBracket (nNest + 1) ts).map fun p => (.op .openBracket :: p.1, p.2)
  | .op .closeBracket :: ts =>
    if nNest - 1 = 0 then some ([], ts)
    else (matchBracket (nNest - 1) ts).map fun p => (.op .closeBracket :: p.1, p.2)
  | t :: ts => (matchBracket nNest ts).map fun p => (t :: p.1, p.2)

/-- Phase 1 over the `n` tokens from `jj` on.  The tree of the tokens in brackets takes the
slot of the open bracket, and whatever else is left of them stays where it is. -/
def bracketSlots (makeTree : List (Token α) → Except Failure (Slots α)) :
    ℕ → List (Token α) → Except Failure (Slots α)
  | 0, ts => .ok (ts.map fun t => some (.leaf t))
  | _ + 1, [] => .ok []
  | n + 1, .op .openBracket :: ts =>
    match matchBracket 1 ts with
    | none => .error .silent
    | some ([], _) => .error .silent
    | some (us, rest) => do
      let sub ← makeTree us
      let slots ← bracketSlots makeTree n rest
      .ok (sub.take 1 ++ none :: (sub.drop 1 ++ none :: slots))
  | n + 1, t :: ts => do
    let slots ← bracketSlots makeTree n ts
    .ok (some (.leaf t) :: slots)

def isUnary : Node α → Bool
  | .leaf (.op o) => iPrecedence o == 1
  | _ => false

def bindUnary (x : Node α) (slots : Slots α) : Option (Slots α) :=
  match x, slots with
  | .leaf (.op o), some a :: rest =>
    if isTerm a then some (some (.unary o a) :: none :: rest) else none
  | _, _ => none

def unarySlots : Slots α → Option (Slots α)
  | [] => some []
  | none :: rest => (unarySlots rest).map (none :: ·)
  | some x :: rest => do
    let slots ← unarySlots rest
    if isUnary x then bindUnary x slots else some (some x :: slots)

/-- The binary operators of precedence `p` without their operands. -/
def fireBinary (p : ℤ) : Node α → Option (Node α → Node α → Node α)
  | .leaf (.op o) => if iPrecedence o = p then some (.binary o) else none
  | _ => none

def binarySlots (p : ℤ) (slots : Slots α) : Option (Slots α) :=
  (bindSlots isTerm (fireBinary p) slots.length [] slots).map List.reverse

/-- The operator `o` without its operands. -/
def isOp (o : Op) : Node α → Bool
  | .leaf (.op o') => o' == o
  | _ => false

/-- The nodes that `?` takes: the condition is the nearest one left of it, and the three
next ones right of it are the true branch, `:` and the false branch. -/
def takeTernary (behind ahead : Slots α) : Option (Node α × Slots α × Slots α) := do
  let (iCondition, behind) ← takeFirst behind
  let (iTrueBranch, ahead) ← takeFirst ahead
  let (iColon, ahead) ← takeFirst ahead
  let (iFalseBranch, ahead) ← takeFirst ahead
  if isTerm iCondition && isTerm iTrueBranch && isOp .ternaryC iColon && isTerm iFalseBranch then
    some (.binary .ternaryQ iCondition (.binary .ternaryC iTrueBranch iFalseBranch), behind, ahead)
  else none

def ternarySlots : ℕ → Slots α → Slots α → Option (Slots α)
  | 0, behind, ahead => some (ahead.reverse ++ behind)
  | _ + 1, behind, [] => some behind
  | n + 1, behind, none :: ahead => ternarySlots n (none :: behind) ahead
  | n + 1, behind, some x :: ahead =>
    if isOp .ternaryQ x then
      match takeTernary behind ahead with
      | none => none
      | some (iQ, behind, ahead) => ternarySlots n (some iQ :: behind) ahead
    else ternarySlots n (some x :: behind) ahead

def fireAssign : Node α → Option (Node α → Node α → Node α)
  | .leaf (.op .varAssign) => some fun right left => .binary .varAssign left right
  | _ => none

def assignSlots (slots : Slots α) : Option (Slots α) :=
  bindSlots isTerm fireAssign slots.length [] slots.reverse

def compact (slots : Slots α) : Slots α :=
  match takeFirst slots with
  | none => slots
  | some (x, slots) => some x :: slots.tail

def binaryPrecedences : List ℤ := [2, 3, 4, 5, 6, 7, 8, 9, 10, 11, 12, 13]

def bindOperators (slots : Slots α) : Option (Slots α) := do
  let slots ← unarySlots slots
  let slots ← binaryPrecedences.foldlM (fun slots p => binarySlots p slots) slots
  let slots ← ternarySlots slots.length [] slots
  assignSlots slots.reverse

def mxExprDepth : ℕ := 1000

/-- `th8ExprMakeTree` with `levels` further levels of brackets. -/
def makeTreeWithin : ℕ → List (Token α) → Except Failure (Slots α)
  | 0, _ => .error (.static "expression nested too deeply")
  | levels + 1, ts =>
    if ts = [] then .error .silent
    else do
      let slots ← bracketSlots (makeTreeWithin levels) ts.length ts
      match bindOperators slots with
      | none => .error .silent
      | some slots => .ok (compact slots)

/-- `th8ExprMakeTree` at depth 0. -/
def makeTree (ts : List (Token α)) : Except Failure (Slots α) :=
  makeTreeWithin (mxExprDepth + 1) ts

end Th8.Expr
