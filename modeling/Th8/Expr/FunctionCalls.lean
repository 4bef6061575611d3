import Th8.Parser.Tokenizer
import Th8.Support.Delimiters

/-!
# Calls of math functions

`th8ExprParse` finds the end of an argument list and the comma in it by counting raw
parentheses, while the operands of an expression are delimited by quotes, braces, brackets
and dollar signs.  The number of arguments is left to the procedure of the function.
-/

namespace Th8

open Support Option

abbrev chComma : Byte := 0x2c

def callDelimiters : Delimiters Byte where
  opener := chOpenParen
  closer := chCloseParen
  separator := chComma
  closer_ne_opener := by decide
  separator_ne_opener := by decide
  separator_ne_closer := by decide

/-- The split of the argument text on a comma: only the first one outside parentheses
counts, and without any text there is no argument. -/
def splitArguments (zArgs : Bytes) : List Bytes :=
  match callDelimiters.splitSeparator 0 zArgs with
  | some (zArg1, zArg2) => [zArg1, zArg2]
  | none => if zArgs = [] then [] else [zArgs]

def callArguments (z : Bytes) : Option (List Bytes × Bytes) :=
  (callDelimiters.splitClose 0 z).map fun r => (splitArguments r.1, r.2)

/-- A registered function (`Th8_MathFuncEntry`).  A pointer to an operand may be null, and
what its procedure does then is the check it begins with. -/
structure MathFunc where
  nArg : ℕ
  check : Option Bytes → Option Bytes → Except Failure Unit

def MathFunc.Takes (f : MathFunc) (zArg1 zArg2 : Option Bytes) : Prop :=
  f.check zArg1 zArg2 = .ok ()

inductive CallEnd where
  | rejected (why : Failure)
  | computes (zArg1 zArg2 : Option Bytes) (rest : Bytes)

/-- `th8ExprEvalFunc`, up to what the procedure computes.  The arity is fetched, and that
is all that happens to it. -/
def exprEvalFunc (find : Bytes → Option MathFunc) (zFunc : Bytes)
    (zArg1 zArg2 : Option Bytes) (rest : Bytes) : CallEnd :=
  match find zFunc with
  | none => .rejected (.message "unknown math function \"" zFunc)
  | some f =>
    match f.check zArg1 zArg2 with
    | .error why => .rejected why
    | .ok () => .computes zArg1 zArg2 rest

section Calls

variable {σ : Type} (expr : Bytes → σ → Except Failure (Option Bytes × σ))
variable (find : Bytes → Option MathFunc)

/-- The arguments are evaluated one after the other by `Th8_Expr`.  An empty result may be
a null pointer. -/
def exprAll : List Bytes → σ → Except Failure (List (Option Bytes) × σ)
  | [], s => .ok ([], s)
  | z :: zs, s =>
    match expr z s with
    | .error why => .error why
    | .ok (v, s') =>
      match exprAll zs s' with
      | .error why => .error why
      | .ok (vs, s'') => .ok (v :: vs, s'')

def operand (vals : List (Option Bytes)) (i : ℕ) : Option Bytes := vals[i]?.join

/-- A call in the expression `zExpr`, from the text behind its open parenthesis. -/
def functionCall (zExpr zFunc z : Bytes) (s : σ) : Except Failure (CallEnd × σ) :=
  match callArguments z with
  | none => .ok (.rejected (.message "unmatched ( in expression: \"" zExpr), s)
  | some (args, rest) =>
    match exprAll expr args s with
    | .error why => .error why
    | .ok (vals, s') =>
      .ok (exprEvalFunc find zFunc (operand vals 0) (operand vals 1) rest, s')

def Accepts (zExpr zFunc z : Bytes) (s : σ) : Prop :=
  ∃ zArg1 zArg2 rest s',
    functionCall expr find zExpr zFunc z s = .ok (.computes zArg1 zArg2 rest, s')

end Calls

/-- What the procedures of the registration table check: those with an operation of their
own, the dispatcher `th8MathTranscendental`, and `th8MathClassify`. -/
inductive MathProc where
  | operation
  | transcendental
  | classify
deriving DecidableEq

def MathProc.check (nArg : ℕ) (zArg1 zArg2 : Option Bytes) : MathProc → Except Failure Unit
  | .operation =>
    if 1 ≤ nArg ∧ zArg1 = none then .error .silent
    else if 2 ≤ nArg ∧ zArg2 = none then .error .silent
    else .ok ()
  | .transcendental =>
    if 1 ≤ nArg ∧ zArg1 = none then
      .error (.static "math function: missing first argument")
    else if 2 ≤ nArg ∧ zArg2 = none then
      .error (.static "math function: missing second argument")
    else .ok ()
  | .classify =>
    if zArg1 = none then .error (.static "fpclassify: missing argument") else .ok ()

def builtinMathFuncs : List (String × ℕ × MathProc) :=
  [("abs", 1, .operation), ("bool", 1, .operation), ("double", 1, .operation),
   ("entier", 1, .operation), ("epsilon", 0, .operation), ("int", 1, .operation),
   ("isqrt", 1, .operation), ("max", 2, .operation), ("min", 2, .operation),
   ("pi", 0, .operation), ("random", 0, .operation), ("round", 1, .operation),
   ("typeof", 1, .operation), ("wide", 1, .operation), ("acos", 1, .transcendental),
   ("asin", 1, .transcendental), ("atan", 1, .transcendental),
   ("atan2", 2, .transcendental), ("ceil", 1, .transcendental),
   ("cos", 1, .transcendental), ("cosh", 1, .transcendental),
   ("exp", 1, .transcendental), ("floor", 1, .transcendental),
   ("fmod", 2, .transcendental), ("hypot", 2, .transcendental),
   ("log", 1, .transcendental), ("log10", 1, .transcendental),
   ("pow", 2, .transcendental), ("rand", 0, .transcendental),
   ("sin", 1, .transcendental), ("sinh", 1, .transcendental),
   ("sqrt", 1, .transcendental), ("srand", 1, .transcendental),
   ("tan", 1, .transcendental), ("tanh", 1, .transcendental),
   ("acosh", 1, .transcendental), ("asinh", 1, .transcendental),
   ("atanh", 1, .transcendental), ("cbrt", 1, .transcendental),
   ("copysign", 2, .transcendental), ("dim", 2, .transcendental),
   ("erf", 1, .transcendental), ("erfc", 1, .transcendental),
   ("exp2", 1, .transcendental), ("expm1", 1, .transcendental),
   ("gamma", 1, .transcendental), ("ldexp", 2, .transcendental),
   ("lgamma", 1, .transcendental), ("log1p", 1, .transcendental),
   ("log2", 1, .transcendental), ("logb", 1, .transcendental),
   ("nextafter", 2, .transcendental), ("remainder", 2, .transcendental),
   ("signbit", 1, .transcendental), ("trunc", 1, .transcendental),
   ("fpclassify", 1, .classify), ("isfinite", 1, .transcendental),
   ("isinf", 1, .transcendental), ("isnan", 1, .transcendental),
   ("isnormal", 1, .transcendental), ("issubnormal", 1, .transcendental),
   ("isunordered", 2, .transcendental)]

def registeredMathFunc (entry : String × ℕ × MathProc) : MathFunc where
  nArg := entry.2.1
  check zArg1 zArg2 := entry.2.2.check entry.2.1 zArg1 zArg2

/-- `Th8_FindMathFunc` with no functions registered but those of the language. -/
def builtinMathFunc (zFunc : Bytes) : Option MathFunc :=
  (builtinMathFuncs.find? fun entry => ascii entry.1 == zFunc).map registeredMathFunc

/-- The bytes of a quoted operand behind its open quote.  Without a close quote the rest
of the expression is quoted. -/
def quotedOperand : Bytes → ℕ
  | [] => 0
  | c :: rest =>
    if c == chQuote then 1
    else if c == chBackslash then
      match rest with
      | [] => 1
      | _ :: rest' => quotedOperand rest' + 2
    else quotedOperand rest + 1

def delimitedOperand : Bytes → Option (Except Failure ℕ)
  | [] => none
  | c :: rest =>
    if c == chDollar then some (nextVarName (c :: rest))
    else if c == chOpenBrace || c == chOpenBracket then some (nextCommand (c :: rest))
    else if c == chQuote then some (.ok (quotedOperand rest + 1))
    else none

/-- An argument list with the text behind it.  An empty list is an empty first argument. -/
structure ArgumentList where
  first : Bytes
  others : List Bytes
  rest : Bytes
deriving DecidableEq

namespace ArgumentList

def push (c : Byte) (a : ArgumentList) : ArgumentList := { a with first := c :: a.first }

def separate (a : ArgumentList) : ArgumentList := ⟨[], a.first :: a.others, a.rest⟩

def arguments (a : ArgumentList) : List Bytes :=
  if a.first = [] ∧ a.others = [] then [] else a.first :: a.others

def body (a : ArgumentList) : Bytes := a.first ++ a.others.flatMap (chComma :: ·)

end ArgumentList

/-- The argument list at the head of a text, `skip` more bytes of which belong to an
operand that has begun, inside `depth` parentheses of the list. -/
def argumentsFrom : ℕ → ℕ → Bytes → Option ArgumentList
  | _, _, [] => none
  | skip + 1, depth, c :: rest => (argumentsFrom skip depth rest).map (.push c)
  | 0, depth, c :: rest =>
    match delimitedOperand (c :: rest) with
    | some (.error _) => none
    | some (.ok n) => (argumentsFrom (n - 1) depth rest).map (.push c)
    | none =>
      match callDelimiters.step depth c with
      | none => some ⟨[], [], rest⟩
      | some inner =>
        if c = chComma ∧ depth = 0 then (argumentsFrom 0 0 rest).map .separate
        else (argumentsFrom 0 inner rest).map (.push c)

def grammarArguments (z : Bytes) : Option (List Bytes × Bytes) :=
  (argumentsFrom 0 0 z).map fun a => (a.arguments, a.rest)

/-! ## The two argument lists -/

namespace ArgumentList

@[simp] theorem body_separate (a : ArgumentList) : a.separate.body = chComma :: a.body := by
  simp [body, separate]

end ArgumentList

theorem argumentsFrom_text {skip depth : ℕ} {z : Bytes} {a : ArgumentList}
    (h : argumentsFrom skip depth z = some a) : z = a.body ++ chCloseParen :: a.rest := by
  induction z generalizing skip depth a with
  | nil =>
    rw [argumentsFrom] at h
    cases h
  | cons c z ih =>
    have hpush : ∀ {skip depth}, (argumentsFrom skip depth z).map (.push c) = some a →
        c :: z = a.body ++ chCloseParen :: a.rest := by
      intro skip depth h
      obtain ⟨b, hb, rfl⟩ := map_eq_some_iff.mp h
      rw [ih hb]
      rfl
    cases skip with
    | succ skip =>
      rw [argumentsFrom] at h
      exact hpush h
    | zero =>
      rw [argumentsFrom] at h
      split at h
      · cases h
      · exact hpush h
      · split at h
        · rename_i hstep
          obtain ⟨-, rfl⟩ := Delimiters.step_eq_none_iff.mp hstep
          cases h
          rfl
        · split at h
          · rename_i hcomma
            obtain ⟨b, hb, rfl⟩ := map_eq_some_iff.mp h
            rw [ArgumentList.body_separate, ih hb, hcomma.1]
            rfl
          · exact hpush h

theorem callArguments_eq_some_iff {b rest : Bytes} {args : List Bytes} :
    callArguments (b ++ chCloseParen :: rest) = some (args, rest) ↔
      callDelimiters.Balanced b ∧ splitArguments b = args := by
  constructor
  · intro h
    obtain ⟨⟨b', rest'⟩, hclose, hr⟩ := map_eq_some_iff.mp h
    cases hr
    obtain ⟨heq, hlevel⟩ := Delimiters.splitClose_eq_some_iff.mp hclose
    obtain rfl : b = b' := List.append_cancel_right heq
    exact ⟨hlevel, rfl⟩
  · rintro ⟨hbalanced, rfl⟩
    exact map_eq_some_iff.mpr
      ⟨(b, rest), Delimiters.splitClose_eq_some_iff.mpr ⟨rfl, hbalanced⟩, rfl⟩

section Splits

variable {b first second : Bytes}

theorem splitArguments_length_le (b : Bytes) : (splitArguments b).length ≤ 2 := by
  unfold splitArguments
  split
  · exact Nat.le_refl 2
  · split_ifs <;> simp

theorem splitArguments_eq_single_iff (h : callDelimiters.Balanced b) (hne : b ≠ []) :
    splitArguments b = [b] ↔ callDelimiters.Unsplit 0 b := by
  have hlevel : callDelimiters.level 0 b ≠ none := by simp [h.level]
  rw [← Delimiters.splitSeparator_eq_none_iff hlevel, splitArguments, Int.ofNat_zero]
  cases callDelimiters.splitSeparator 0 b with
  | none => simp [hne]
  | some r => simp

theorem splitArguments_eq_pair_iff (h : callDelimiters.Balanced (first ++ chComma :: second)) :
    splitArguments (first ++ chComma :: second) = [first, second] ↔
      callDelimiters.Balanced first ∧ callDelimiters.Unsplit 0 first := by
  have hlevel : callDelimiters.level 0 (first ++ chComma :: second) ≠ none := by
    simp [h.level]
  have hsplit := Delimiters.splitSeparator_eq_some_iff (x := first) (y := second) hlevel
  rw [Int.ofNat_zero] at hsplit
  constructor
  · intro heq
    apply (hsplit.mp _).2
    unfold splitArguments at heq
    split at heq
    · rename_i x y hxy
      cases heq
      exact hxy
    · split_ifs at heq
      simp at heq
  · intro hfirst
    rw [splitArguments, hsplit.mpr ⟨rfl, hfirst⟩]

theorem balanced_pair_iff :
    callDelimiters.Balanced (first ++ chComma :: second) ∧
        splitArguments (first ++ chComma :: second) = [first, second] ↔
      (callDelimiters.Balanced first ∧ callDelimiters.Balanced second) ∧
        callDelimiters.Unsplit 0 first := by
  constructor
  · rintro ⟨hbalanced, hsplit⟩
    obtain ⟨hfirst, hcomma⟩ := (splitArguments_eq_pair_iff hbalanced).mp hsplit
    exact ⟨⟨hfirst, (Delimiters.balanced_join_iff hfirst.level).mp hbalanced⟩, hcomma⟩
  · rintro ⟨⟨hfirst, hsecond⟩, hcomma⟩
    have hbalanced : callDelimiters.Balanced (first ++ chComma :: second) :=
      (Delimiters.balanced_join_iff hfirst.level).mpr hsecond
    exact ⟨hbalanced, (splitArguments_eq_pair_iff hbalanced).mpr ⟨hfirst, hcomma⟩⟩

end Splits

/-- The parentheses and commas inside operands leave the raw scans alone: no more than two
arguments, the parentheses of each are balanced as bytes, and no comma of the first one is
outside them.  Where the list does not end, its parentheses do not either. -/
def PlainArguments (z : Bytes) : Prop :=
  match grammarArguments z with
  | none => callDelimiters.level 0 z ≠ none
  | some (args, _) =>
    args.length ≤ 2 ∧ (∀ a ∈ args, callDelimiters.Balanced a) ∧
      ∀ a ∈ args.head?, callDelimiters.Unsplit 0 a

theorem ArgumentList.splitArguments_iff (a : ArgumentList) :
    callDelimiters.Balanced a.body ∧ splitArguments a.body = a.arguments ↔
      a.arguments.length ≤ 2 ∧ (∀ x ∈ a.arguments, callDelimiters.Balanced x) ∧
        ∀ x ∈ a.arguments.head?, callDelimiters.Unsplit 0 x := by
  obtain ⟨first, others, rest⟩ := a
  cases others with
  | nil =>
    have hbody : (⟨first, [], rest⟩ : ArgumentList).body = first := by simp [body]
    rw [hbody]
    by_cases hnil : first = []
    · subst hnil
      have harguments : (⟨[], [], rest⟩ : ArgumentList).arguments = [] := rfl
      rw [harguments]
      simpa using ⟨Delimiters.balanced_nil, rfl⟩
    · have harguments : (⟨first, [], rest⟩ : ArgumentList).arguments = [first] := by
        simp [arguments, hnil]
      rw [harguments]
      have hsingle := and_congr_right fun h : callDelimiters.Balanced first =>
        splitArguments_eq_single_iff h hnil
      simpa using hsingle
  | cons second others =>
    have harguments : (⟨first, second :: others, rest⟩ : ArgumentList).arguments =
        first :: second :: others := by simp [arguments]
    rw [harguments]
    cases others with
    | nil =>
      have hbody : (⟨first, [second], rest⟩ : ArgumentList).body =
          first ++ chComma :: second := by simp [body]
      rw [hbody, balanced_pair_iff]
      simp
    | cons third others =>
      refine iff_of_false ?_ (by simp)
      rintro ⟨-, hsplit⟩
      have hle := splitArguments_length_le (⟨first, second :: third :: others, rest⟩ :
        ArgumentList).body
      rw [hsplit] at hle
      simp at hle

theorem callArguments_eq_grammarArguments_iff (z : Bytes) :
    callArguments z = grammarArguments z ↔ PlainArguments z := by
  cases hfrom : argumentsFrom 0 0 z with
  | none =>
    have hgrammar : grammarArguments z = none := by
      rw [grammarArguments, hfrom]
      rfl
    rw [PlainArguments, hgrammar, callArguments]
    exact map_eq_none_iff.trans Delimiters.splitClose_eq_none_iff
  | some a =>
    have hgrammar : grammarArguments z = some (a.arguments, a.rest) := by
      rw [grammarArguments, hfrom]
      rfl
    rw [PlainArguments, hgrammar, argumentsFrom_text hfrom, callArguments_eq_some_iff]
    exact a.splitArguments_iff

section Arity

variable {σ : Type} {expr : Bytes → σ → Except Failure (Option Bytes × σ)}
variable {find : Bytes → Option MathFunc} {zExpr zFunc z rest : Bytes} {s s' : σ}
variable {args : List Bytes} {vals : List (Option Bytes)} {f : MathFunc}

theorem exprEvalFunc_computes_iff (hfind : find zFunc = some f)
    {zArg1 zArg2 : Option Bytes} :
    (∃ z1 z2 rest', exprEvalFunc find zFunc zArg1 zArg2 rest = .computes z1 z2 rest') ↔
      f.Takes zArg1 zArg2 := by
  rw [exprEvalFunc, hfind, MathFunc.Takes]
  dsimp only
  cases f.check zArg1 zArg2 with
  | error why => simp
  | ok u => simp

theorem accepts_iff_takes (hargs : callArguments z = some (args, rest))
    (hvals : exprAll expr args s = .ok (vals, s')) (hfind : find zFunc = some f) :
    Accepts expr find zExpr zFunc z s ↔ f.Takes (operand vals 0) (operand vals 1) := by
  have hcall : functionCall expr find zExpr zFunc z s =
      .ok (exprEvalFunc find zFunc (operand vals 0) (operand vals 1) rest, s') := by
    rw [functionCall, hargs]
    simp only [hvals]
  rw [Accepts, hcall, ← exprEvalFunc_computes_iff hfind]
  constructor
  · rintro ⟨zArg1, zArg2, rest', s'', h⟩
    exact ⟨zArg1, zArg2, rest', congrArg Prod.fst (Except.ok.inj h)⟩
  · rintro ⟨zArg1, zArg2, rest', h⟩
    rw [h]
    exact ⟨zArg1, zArg2, rest', s', rfl⟩

variable (expr find zExpr zFunc z s) in
/-- The argument list of the call ends and is split as the grammar of operands says, and a
call whose arguments have values is accepted exactly if there are as many as the function
has been registered with. -/
def CallMeets : Prop :=
  callArguments z = grammarArguments z ∧
    ∀ f args rest vals s', find zFunc = some f →
      grammarArguments z = some (args, rest) → exprAll expr args s = .ok (vals, s') →
        (Accepts expr find zExpr zFunc z s ↔ args.length = f.nArg)

end Arity

end Th8
