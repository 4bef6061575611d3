import Th8.Convert.Double
import Th8.Expr.FunctionCalls
import Th8.Expr.MakeTree

/-!
# The tokens of an expression

`th8ExprParse` cuts an expression into operands and operators.  Where an operand begins with
a dollar sign, a brace, a bracket or a quote, its end is found as in a script; a call of a
function goes to the parenthesis that closes its argument list.
-/

namespace Th8.Expr

/-- The flags of `Th8_GetExprFeatures`: `TH8_EXPR_VAR_ASSIGN` and `TH8_EXPR_TOP_COMMA`. -/
structure ExprFeatures where
  varAssign : Bool
  topComma : Bool
deriving DecidableEq

/-- `th8Operators`, in the order in which it is searched. -/
def th8Operators : List (String × Op) :=
  [("(", .openBracket), (")", .closeBracket), ("-", .unaryMinus), ("+", .unaryPlus),
   ("~", .bitwiseNot), ("!", .logicalNot), ("**", .exponent), ("<<", .leftShift),
   (">>", .rightShift), ("<=", .le), (">=", .ge), ("==", .eq), ("!=", .ne), ("eq", .seq),
   ("ne", .sne), ("in", .isIn), ("ni", .ni), ("&&", .logicalAnd), ("||", .logicalOr),
   (":=", .varAssign), ("*", .multiply), ("/", .divide), ("%", .modulus), ("+", .add),
   ("-", .subtract), ("<", .lt), (">", .gt), ("&", .bitwiseAnd), ("^", .bitwiseXor),
   ("|", .bitwiseOr), ("?", .ternaryQ), (":", .ternaryC)]

/-- The white space between two tokens.  The blanks behind a continued line are skipped by a
loop of their own, but they are white space anyway. -/
def blankLength : Bytes → ℕ
  | [] => 0
  | c :: rest =>
    if isSpace c then blankLength rest + 1
    else if c == chBackslash then
      match rest with
      | [] => 0
      | d :: rest' => if d == chNewline || d == 0x0d then blankLength rest' + 2 else 0
    else 0

def isRadixLetter (c : Byte) : Bool :=
  c == 0x78 || c == 0x58 || c == 0x6f || c == 0x4f || c == 0x62 || c == 0x42

/-- The bytes of a decimal number behind the byte `prev` of it.  A sign belongs to it only
behind the letter of an exponent. -/
def numberLength (prev : Option Byte) : Bytes → ℕ
  | [] => 0
  | c :: rest =>
    if isDecimal c || c == 0x2e || c == 0x65 || c == 0x45 ||
        ((c == 0x2b || c == 0x2d) && (prev == some 0x65 || prev == some 0x45)) then
      numberLength (some c) rest + 1
    else 0

/-- The search of the table.  A word among the operators does not begin a longer word, and
behind a complete term there is no unary operator. -/
def matchOperator (features : ExprFeatures) (prevIsTerm : Bool) (z : Bytes) : Option (Op × ℕ) :=
  th8Operators.findSome? fun (zOp, o) =>
    let zOp := ascii zOp
    if o == .varAssign && !features.varAssign then none
    else if !zOp.isPrefixOf z then none
    -- no operator begins with a digit
    else if zOp.head?.any isAlnum && (z.drop zOp.length).head?.any isAlnum then none
    else if iPrecedence o == 1 && prevIsTerm then none
    else some (o, zOp.length)

/-- What `th8ExprParse` finds: an operand with its text, an operator, or a call with its
arguments. -/
inductive Lexeme where
  | lit (zValue : Bytes)
  | op (o : Op)
  | call (zFunc : Bytes) (zArgs : List Bytes)
deriving DecidableEq

namespace Lexeme

/-- `prevIsTerm` for the token behind it. -/
def isTerm : Lexeme → Bool
  | .lit _ => true
  | .op o => o == .closeBracket
  | .call _ _ => true

def depth (depth : ℕ) : Lexeme → ℕ
  | .op .openBracket => depth + 1
  | .op .closeBracket => depth - 1
  | _ => depth

end Lexeme

/-- The identifier at the head of a text: a call, or a word that is a boolean or a special
number. -/
def wordToken (isWord : Bytes → Bool) (zExpr z : Bytes) : Except Failure (Lexeme × ℕ) :=
  let zName := z.takeWhile isAlnum
  if zName = [] then .error (.message "syntax error in expression: \"" zExpr)
  else
    match z.drop zName.length with
    | [] => word zName
    | c :: rest =>
      if c == chOpenParen then
        match callArguments rest with
        | none => .error (.message "unmatched ( in expression: \"" zExpr)
        | some (zArgs, rest') => .ok (.call zName zArgs, z.length - rest'.length)
      else word zName
where
  word (zName : Bytes) : Except Failure (Lexeme × ℕ) :=
    if isWord zName then .ok (.lit zName, zName.length)
    else .error (.message "invalid bareword \"" (zName.take 63))

/-- The token of the expression `zExpr` at the head of the text `z`, and its length. -/
def nextToken (features : ExprFeatures) (isWord : Bytes → Bool) (zExpr : Bytes)
    (prevIsTerm : Bool) (z : Bytes) : Except Failure (Lexeme × ℕ) :=
  let operand (n : ℕ) : Except Failure (Lexeme × ℕ) := .ok (.lit (z.take n), n)
  if z.head? == some 0x30 && (z.drop 1).head?.any isRadixLetter then
    operand (2 + ((z.drop 2).takeWhile isAlnum).length)
  else if z.head?.any fun c => isDecimal c || c == 0x2e then operand (numberLength none z)
  else
    match delimitedOperand z with
    | some (.error e) => .error e
    | some (.ok n) => operand n
    | none =>
      match matchOperator features prevIsTerm z with
      | some (o, n) => .ok (.op o, n)
      | none => wordToken isWord zExpr z

theorem matchOperator_eq_none {c : Byte}
    (h : ∀ o ∈ th8Operators, (ascii o.1).head?.any (· != c) = true) (features : ExprFeatures)
    (prevIsTerm : Bool) (rest : Bytes) : matchOperator features prevIsTerm (c :: rest) = none := by
  refine List.findSome?_eq_none_iff.mpr fun o ho => ?_
  have hnone : (ascii o.1).isPrefixOf (c :: rest) = false := by
    have hne := h o ho
    cases hz : ascii o.1 with
    | nil =>
      rw [hz] at hne
      cases hne
    | cons d z =>
      rw [hz] at hne
      have hdc : (d == c) = false := by simpa using hne
      rw [List.isPrefixOf, hdc, Bool.false_and]
  simp [hnone]

end Th8.Expr
