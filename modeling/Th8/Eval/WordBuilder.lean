import Th8.Parser.Substitution

/-!
# The two word builders

A command text becomes an argument vector in one of two ways.  `th8SplitCommand`
runs synchronously and is used for texts without an open bracket.
`th8NRSubstAndBuild` keeps its progress in a `Th8_CmdBuild`, so that it can stop
at a command substitution and be resumed with the result of the bracketed script;
`th8NRCmdDispatch` then assembles the argument vector.  Each is embedded here from
its own text.
-/

namespace Th8

variable {σ : Type}

/-- An argument length as it is stored in `lenbuf`: byte count and tags. -/
structure LenWord where
  len : ℕ
  tags : Tags
deriving DecidableEq

def TString.lenWord (x : TString) : LenWord := ⟨x.bytes.length, x.tags⟩

/-- `sizeof(size_t)`. -/
def sizeOfSize : ℕ := 8

/-- The accumulators both builders fill: argument bytes, each argument followed
by a zero byte, argument lengths, and the argument count. -/
structure ArgBuffers where
  strbuf : Buffer Byte
  lenbuf : Buffer LenWord
  nCount : ℕ
deriving DecidableEq

def ArgBuffers.init : ArgBuffers := ⟨bufInit, bufInit, 0⟩

/-- Append one argument; `strTags` are the tags that go with the byte count of
the write to `strbuf`. -/
def ArgBuffers.add (b : ArgBuffers) (x : TString) (strTags : Tags) : ArgBuffers where
  strbuf := bufAddChar (bufWrite 1 b.strbuf x.bytes strTags) 0
  lenbuf := bufWrite sizeOfSize b.lenbuf [x.lenWord] Tags.clean
  nCount := b.nCount + 1

def argvFrom : List LenWord → Bytes → List TString
  | [], _ => []
  | n :: anElem, zElem =>
    ⟨zElem.take n.len, n.tags⟩ :: argvFrom anElem (zElem.drop (n.len + 1))

def ArgBuffers.argv (b : ArgBuffers) : Except Failure (List TString) :=
  if b.strbuf.bFail || b.lenbuf.bFail then .error (.static "out of memory")
  else .ok (argvFrom (b.lenbuf.zBuf.take b.nCount) b.strbuf.zBuf)

/-- The part of a round of `th8SplitCommand` after the word has been delimited:
an expansion word is substituted behind its prefix and its elements are spliced
in, any other word is substituted and added. -/
def splitWord (env : Env σ) (s : σ) (b : ArgBuffers) (zWord : Bytes) :
    Except Failure (ArgBuffers × σ) := do
  match ← checkExpansionPrefix env s zWord with
  | some (nTag, xExpand) =>
    let zRest := zWord.drop (nTag + 2)
    let (res, s') ← substWord env (zRest.length + 1) s zRest
    let expanded ← xExpand res
    return (expanded.foldl (fun b x => b.add x x.tags) b, s')
  | none =>
    let (res, s') ← substWord env (zWord.length + 1) s zWord
    return (b.add res Tags.clean, s')

/-- The word loop of `th8SplitCommand`.  The first argument bounds the number of
rounds; a round reads at least one byte. -/
def splitWords (env : Env σ) :
    ℕ → σ → Bytes → ArgBuffers → Except Failure (ArgBuffers × σ)
  | _, s, [], b => .ok (b, s)
  | 0, _, _ :: _, _ => .error .silent
  | fuel + 1, s, c :: rest, b => do
    let s₁ ← env.ready s
    let zInput := (c :: rest).drop (nextSpace (c :: rest))
    if zInput.length = 0 then return (b, s₁)
    let nWord ← nextWord zInput false
    if nWord = 0 then return (b, s₁)
    let (b', s₂) ← splitWord env s₁ b (zInput.take nWord)
    splitWords env fuel s₂ (zInput.drop nWord) b'

def splitCommand (env : Env σ) (s : σ) (zCmd : Bytes) : Except Failure (List TString × σ) := do
  let (b, s') ← splitWords env zCmd.length s zCmd ArgBuffers.init
  let argv ← b.argv
  return (argv, s')

/-! ## The resumable builder -/

/-- `Th8_CmdBuild`.  `zWord` holds the bytes of the current word from `wordPos`
up to `wordEnd`; `xExpand` is present when `bExpand` is set. -/
structure CmdBuild where
  args : ArgBuffers
  zInput : Bytes
  zWord : Bytes
  nOrigWord : ℕ
  wordBuf : Buffer Byte
  bWordActive : Bool
  xExpand : Option ExpansionProc

/-- The state in which `th8EvalIteration` starts a build. -/
def CmdBuild.init (zCmd : Bytes) : CmdBuild where
  args := ArgBuffers.init
  zInput := zCmd
  zWord := []
  nOrigWord := 0
  wordBuf := bufInit
  bWordActive := false
  xExpand := none

def cmdBuildAddWord (b : ArgBuffers) (x : TString) : ArgBuffers :=
  b.add x x.tags

/-- The copy loop of `th8NRSubstAndBuild` for a brace-delimited word. -/
def nrBraced : Bool → Bytes → Buffer Byte → Buffer Byte
  | _, [], wordBuf => wordBuf
  | inCont, c :: rest, wordBuf =>
    if inCont && (c == chSpace || c == chTab) then nrBraced true rest wordBuf
    else if c == chBackslash then
      match rest with
      | [] => bufAddChar wordBuf c
      | d :: rest' =>
        if d == chNewline then nrBraced true rest' (bufAddChar wordBuf chSpace)
        else nrBraced false (d :: rest') (bufAddChar wordBuf c)
    else nrBraced false rest (bufAddChar wordBuf c)

/-- Where the substitution loop of `th8NRSubstAndBuild` stops: at the end of the
word, or at a bracketed script that has to be evaluated before the rest of the
word is read. -/
inductive NRChars (σ : Type) where
  | wordDone (wordBuf : Buffer Byte) (s : σ)
  | pushEval (script : Bytes) (zWord : Bytes) (wordBuf : Buffer Byte) (s : σ)

/-- The substitution loop of `th8NRSubstAndBuild` (label `continue_word`). -/
def nrSubstChars (env : Env σ) :
    ℕ → σ → Bytes → Buffer Byte → Except Failure (NRChars σ)
  | _, s, [], wordBuf => .ok (.wordDone wordBuf s)
  | 0, _, _ :: _, _ => .error .silent
  | fuel + 1, s, c :: rest, wordBuf =>
    let z := c :: rest
    if c == chBackslash then do
      let nEsc ← nextEscape z
      nrSubstChars env fuel s (z.drop nEsc) (substEscape wordBuf (z.take nEsc))
    else if c == chOpenBracket then do
      let nCmd ← nextCommand z
      return .pushEval ((z.drop 1).take (nCmd - 2)) (z.drop nCmd) wordBuf s
    else if c == chDollar then do
      let nVar ← nextVarName z
      if nVar ≤ 1 then
        nrSubstChars env fuel s rest (bufAddChar wordBuf chDollar)
      else do
        let (res, s') ← substVarName env (substWord env nVar) s (z.take nVar)
        nrSubstChars env fuel s' (z.drop nVar) (bufWrite 1 wordBuf res.bytes res.tags)
    else nrSubstChars env fuel s rest (bufAddChar wordBuf c)

/-- Label `word_done`: expand or add the finished word and advance. -/
def nrWordDone (p : CmdBuild) : Except Failure CmdBuild :=
  let next (args : ArgBuffers) : CmdBuild :=
    { p with
      args := args
      wordBuf := bufInit
      bWordActive := false
      xExpand := none
      zInput := p.zInput.drop p.nOrigWord }
  if p.wordBuf.bFail then .error (.static "out of memory")
  else
    match p.xExpand with
    | some xExpand => do
      let expanded ← xExpand (.plain p.wordBuf.zBuf)
      return next (expanded.foldl (fun b x => cmdBuildAddWord b (x.addTags p.wordBuf.nTag)) p.args)
    | none =>
      .ok (next (cmdBuildAddWord p.args ⟨p.wordBuf.zBuf, p.wordBuf.nTag⟩))

/-- What a call of `th8NRSubstAndBuild` returns: all words are built, or a
bracketed script has been pushed. -/
inductive NRResult (σ : Type) where
  | built (p : CmdBuild) (s : σ)
  | pushed (script : Bytes) (p : CmdBuild) (s : σ)

def wordRest (zWord : Bytes) (expansion : Expansion) : Bytes :=
  match expansion with
  | some (nTag, _) => zWord.drop (nTag + 2)
  | none => zWord

/-- Start substituting the word of `nWord` bytes at the head of `zInput`: skip
its prefix if it has one and set up the scan range.  A brace-delimited word is
copied at once. -/
def nrBeginWord (p : CmdBuild) (zInput : Bytes) (nWord : ℕ) (expansion : Expansion) : CmdBuild :=
  let zWord := wordRest (zInput.take nWord) expansion
  let q := { p with
    zInput := zInput
    nOrigWord := nWord
    bWordActive := true
    xExpand := expansion.map Prod.snd }
  if isBraced zWord then
    { q with zWord := [], wordBuf := nrBraced false (inner zWord) bufInit }
  else if isQuoted zWord then { q with zWord := inner zWord, wordBuf := bufInit }
  else { q with zWord := zWord, wordBuf := bufInit }

/-- The head of the word loop of `th8NRSubstAndBuild`: delimit the next word and
check its prefix.  There is no word left when the result is empty. -/
def nrStartWord (env : Env σ) (s : σ) (p : CmdBuild) : Except Failure (Option CmdBuild × σ) := do
  let s₁ ← env.ready s
  let zInput := p.zInput.drop (nextSpace p.zInput)
  if zInput.length = 0 then return (none, s₁)
  let nWord ← nextWord zInput false
  if nWord = 0 then return (none, s₁)
  let expansion ← checkExpansionPrefix env s₁ (zInput.take nWord)
  return (some (nrBeginWord p zInput nWord expansion), s₁)

/-- `th8NRSubstAndBuild`.  A build whose word is active resumes at label
`continue_word`. -/
def nrSubstAndBuild (env : Env σ) :
    ℕ → σ → CmdBuild → Except Failure (NRResult σ)
  | 0, _, _ => .error .silent
  | fuel + 1, s, p =>
    if p.bWordActive then do
      match ← nrSubstChars env p.zWord.length s p.zWord p.wordBuf with
      | .wordDone wordBuf s' =>
        let q ← nrWordDone { p with zWord := [], wordBuf := wordBuf }
        nrSubstAndBuild env fuel s' q
      | .pushEval script zWord wordBuf s' =>
        return .pushed script { p with zWord := zWord, wordBuf := wordBuf } s'
    else if p.zInput.length = 0 then return .built p s
    else do
      match ← nrStartWord env s p with
      | (none, s') => return .built p s'
      | (some q, s') => nrSubstAndBuild env fuel s' q

/-- `th8NRCmdSubstDone`: the result of the bracketed script goes to the current
word. -/
def nrCmdSubstDone (p : CmdBuild) (res : TString) : CmdBuild :=
  { p with wordBuf := bufWrite 1 p.wordBuf res.bytes res.tags }

/-- Enough rounds of `nrSubstAndBuild` for the words that are left. -/
def CmdBuild.rounds (p : CmdBuild) : ℕ := 2 * p.zInput.length + 2

/-- The trampoline's view of one command: build words, evaluate each pushed
script and resume, and assemble the arguments as `th8NRCmdDispatch` does. -/
def nrCommandFrom (env : Env σ) :
    ℕ → σ → CmdBuild → Except Failure (List TString × σ)
  | 0, _, _ => .error .silent
  | fuel + 1, s, p => do
    match ← nrSubstAndBuild env p.rounds s p with
    | .built q s' =>
      let argv ← q.args.argv
      return (argv, s')
    | .pushed script q s' =>
      let (res, s'') ← env.eval s' script
      nrCommandFrom env fuel s'' (nrCmdSubstDone q res)

/-- The NRE path of `th8EvalIteration` for one command text. -/
def nrCommand (env : Env σ) (s : σ) (zCmd : Bytes) : Except Failure (List TString × σ) :=
  nrCommandFrom env (zCmd.length + 1) s (CmdBuild.init zCmd)

end Th8
