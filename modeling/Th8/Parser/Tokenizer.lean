import Th8.Core.Value

/-!
# The tokenizer

The functions that measure the next structural element of a script text: white
space, end of line, escape sequences, variable references, bracketed blocks and
words.  As in the source they return byte counts, and the caller advances its
input pointer by the count; here advancing is `List.drop`.

The nesting stack of the source never runs out of memory in this model, so
pushing a scope always succeeds.
-/

namespace Th8

/-- The scanning loop of `th8NextSpace`.  The flag says that the scan is in the
inner loop that follows a backslash-newline, where spaces and tabs are skipped. -/
def nextSpaceFrom : Bool → Bytes → ℕ
  | _, [] => 0
  | inCont, c :: rest =>
    if inCont && (c == chSpace || c == chTab) then
      nextSpaceFrom true rest + 1
    else if c == chBackslash then
      match rest with
      | [] => 0
      | d :: rest' => if d == chNewline then nextSpaceFrom true rest' + 2 else 0
    else if isSpace c then nextSpaceFrom false rest + 1
    else 0

/-- `th8NextSpace`: the number of leading white-space bytes.  A backslash-newline
counts as white space, and so does a bare newline. -/
def nextSpace (zInput : Bytes) : ℕ := nextSpaceFrom false zInput

/-- `th8EndOfLine`: after horizontal white space, is the input at a newline or
at its end? -/
def endOfLine : Bytes → Bool
  | [] => true
  | c :: rest =>
    if c == chNewline then true
    else if isSpace c then endOfLine rest
    else false

/-- Where the escape sequence with the byte `e` after its backslash ends. -/
def escapeEnd (e : Byte) (rest : Bytes) : ℕ :=
  if e == 0x61 || e == 0x62 || e == 0x66 || e == 0x6e || e == 0x72 ||
      e == 0x74 || e == 0x76 || e == chBackslash then 2
  else if e == 0x78 then 2 + (rest.takeWhile isHexDig).length
  else if e == 0x75 then 2 + ((rest.take 4).takeWhile isHexDig).length
  else if e == 0x55 then 2 + ((rest.take 8).takeWhile isHexDig).length
  else if e == chNewline then
    2 + (rest.takeWhile fun c => c == chSpace || c == chTab).length
  else if isOctDig e then 2 + ((rest.take 2).takeWhile isOctDig).length
  else 2

/-- `th8NextEscape`: the length of the escape sequence at the head of the input,
which starts with a backslash. -/
def nextEscape (zInput : Bytes) : Except Failure ℕ :=
  match zInput with
  | _ :: e :: rest =>
    let i := escapeEnd e rest
    if zInput.length < i then .error .silent else .ok i
  | _ => .error .silent

/-- The bytes of a possibly qualified variable name: letters, digits, underscores
and pairs of colons. -/
def varNameLength : Bytes → ℕ
  | [] => 0
  | c :: rest =>
    if isAlnum c || c == chUnderscore then varNameLength rest + 1
    else match rest with
      | [] => 0
      | d :: rest' =>
        if c == chColon && d == chColon then varNameLength rest' + 2 else 0

/-- The length of an array subscript up to and including its closing parenthesis.
A backslash hides the byte after it. -/
def subscriptLength : Bytes → Option ℕ
  | [] => none
  | c :: rest =>
    if c == chCloseParen then some 1
    else if c == chBackslash then
      match rest with
      | [] => none
      | _ :: rest' => (subscriptLength rest').map (· + 2)
    else (subscriptLength rest).map (· + 1)

/-- `th8NextVarName`: the length of the variable reference at the head of the
input, which starts with a dollar sign. -/
def nextVarName (zInput : Bytes) : Except Failure ℕ :=
  match zInput with
  | _ :: c :: rest =>
    if c == chOpenBrace then
      let n := (rest.takeWhile (· != chCloseBrace)).length
      if rest.length ≤ n then .error .silent else .ok (2 + n + 1)
    else
      let start := if c == chColon && rest.head? == some chColon then 3 else 1
      let i := start + varNameLength (zInput.drop start)
      match zInput.drop i with
      | [] => .ok i
      | d :: tail =>
        if d == chOpenParen then
          match subscriptLength tail with
          | none => .error .silent
          | some n => .ok (i + 1 + n)
        else .ok i
  | _ => .ok 1

/-! ## Nested scopes -/

/-- The entries of the parse stack (`Th8ParseStack`). -/
inductive Scope where
  | brace
  | bracket
  | quote
deriving DecidableEq

namespace Scope

def unmatched : Scope → String
  | brace => "Unmatched braces:"
  | bracket => "Unmatched brackets:"
  | quote => "Unmatched quote:"

/-- The stack after the byte `c`, which is not a backslash, has been read in the
innermost scope. -/
def read (scope : Scope) (below : List Scope) (c : Byte) : List Scope :=
  match scope with
  | brace =>
    if c == chOpenBrace then brace :: brace :: below
    else if c == chCloseBrace then below
    else brace :: below
  | bracket =>
    if c == chQuote then quote :: bracket :: below
    else if c == chOpenBrace then brace :: bracket :: below
    else if c == chOpenBracket then bracket :: bracket :: below
    else if c == chCloseBracket then below
    else bracket :: below
  | quote =>
    if c == chQuote then below
    else if c == chOpenBracket then bracket :: quote :: below
    else quote :: below

def opened (c : Byte) : List Scope :=
  if c == chOpenBrace then [brace]
  else if c == chOpenBracket then [bracket]
  else if c == chQuote then [quote]
  else []

end Scope

/-- The outcome of a scan that has read `k` more bytes before it. -/
def advance (k : ℕ) (r : List Scope × ℕ) : List Scope × ℕ := (r.1, r.2 + k)

/-- The scanning loop of `th8NextCommand`: the stack left when the outermost
scope closes or the input ends, and the bytes read. -/
def nextCommandFrom : List Scope → Bytes → List Scope × ℕ
  | [], _ => ([], 0)
  | scope :: below, [] => (scope :: below, 0)
  | scope :: below, c :: rest =>
    if c == chBackslash then
      match rest with
      | [] => (scope :: below, 1)
      | _ :: rest' =>
        advance 2 (nextCommandFrom (scope :: below) rest')
    else
      advance 1 (nextCommandFrom (scope.read below c) rest)

/-- `th8NextCommand`: the length of the block at the head of the input, with its
delimiters. -/
def nextCommand (zInput : Bytes) : Except Failure ℕ :=
  match zInput with
  | [] => .error (.message "Empty input to th8NextCommand:" [])
  | first :: rest =>
    if first != chOpenBrace && first != chOpenBracket then
      .error (.message "Expected '\x7b' or '[' at start of:" zInput)
    else
      match nextCommandFrom (Scope.opened first) rest with
      | ([], n) => .ok (n + 1)
      | (inner :: _, _) => .error (.message inner.unmatched zInput)

/-- The scanning loop of `th8NextWord`.  With the stack empty the scan is in a
bare word, which white space, a backslash-newline and, for `isCmd`, a semicolon
end. -/
def nextWordFrom (isCmd : Bool) : List Scope → Bytes → List Scope × ℕ
  | stack, [] => (stack, 0)
  | [], c :: rest =>
    if isSpace c then ([], 0)
    else if isCmd && c == chSemicolon then ([], 0)
    else if c == chBackslash then
      match rest with
      | [] => ([], 1)
      | d :: rest' =>
        if d == chNewline then ([], 0)
        else
          advance 2 (nextWordFrom isCmd [] rest')
    else
      advance 1 (nextWordFrom isCmd (Scope.opened c) rest)
  | scope :: below, c :: rest =>
    if c == chBackslash then
      match rest with
      | [] => (scope :: below, 1)
      | _ :: rest' =>
        advance 2 (nextWordFrom isCmd (scope :: below) rest')
    else
      advance 1 (nextWordFrom isCmd (scope.read below c) rest)

/-- The stack and count with which `th8NextWord` leaves its loop. -/
def nextWordScan (isCmd : Bool) (zInput : Bytes) : List Scope × ℕ :=
  match zInput with
  | [] => ([], 0)
  | first :: rest =>
    if first == chQuote || first == chOpenBrace then
      advance 1 (nextWordFrom isCmd (Scope.opened first) rest)
    else nextWordFrom isCmd [] zInput

/-- `th8NextWord`: the length of the word at the head of the input. -/
def nextWord (zInput : Bytes) (isCmd : Bool) : Except Failure ℕ :=
  match nextWordScan isCmd zInput with
  | ([], n) => .ok n
  | (inner :: _, _) => .error (.message inner.unmatched zInput)

theorem two_le_escapeEnd (e : Byte) (rest : Bytes) : 2 ≤ escapeEnd e rest := by
  unfold escapeEnd
  split_ifs <;> omega

variable {z : Bytes} {n : ℕ}

theorem nextEscape_pos (h : nextEscape z = .ok n) : 0 < n := by
  unfold nextEscape at h
  split at h
  · rename_i e rest
    have htwo := two_le_escapeEnd e rest
    dsimp only at h
    split_ifs at h
    cases h
    omega
  · cases h

theorem nextVarName_pos (h : nextVarName z = .ok n) : 0 < n := by
  unfold nextVarName at h
  split at h
  · rename_i c rest
    dsimp only at h
    generalize hstart : (if (c == chColon && rest.head? == some chColon) = true then 3
      else 1) = start at h
    have hstartPos : 0 < start := by
      rw [← hstart]
      split <;> omega
    split at h
    · split at h
      · cases h
      · cases h
        omega
    · split at h
      · cases h
        omega
      · split at h
        · split at h
          · cases h
          · cases h
            omega
        · cases h
          omega
  · cases h
    omega

theorem nextCommand_pos (h : nextCommand z = .ok n) : 0 < n := by
  unfold nextCommand at h
  split at h
  · cases h
  · split_ifs at h
    split at h
    · cases h
      omega
    · cases h

end Th8
