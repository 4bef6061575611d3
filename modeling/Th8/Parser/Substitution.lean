import Th8.Parser.Tokenizer
import Th8.Support.Outcome

/-!
# Substitution within one word

Backslash, variable and command substitution as `th8SubstWord` performs them,
and the recognition of an expansion prefix.

What the word builders ask of the rest of the interpreter is collected in `Env`:
the readiness poll, variable lookup, the evaluation of a bracketed script and the
registry of expansion operators.  The interpreter state is threaded through the
calls that can change it.
-/

namespace Th8

open List

/-- `Th8_ExpansionProc`: a substituted word to the elements it expands to. -/
abbrev ExpansionProc := TString → Except Failure (List TString)

structure Env (σ : Type) where
  /-- `Th8_Ready`. -/
  ready : σ → Except Failure σ
  /-- `Th8_GetVar`. -/
  getVar : σ → TString → Except Failure TString
  /-- `Th8_Eval` of the script inside brackets. -/
  eval : σ → Bytes → Except Failure (TString × σ)
  /-- `Th8_FindExpansion`. -/
  findExpansion : σ → Bytes → Option ExpansionProc

/-- `th8HexVal`; minus one for a byte that is no hexadecimal digit. -/
def hexVal (c : Byte) : BitVec 32 :=
  if 0x30 ≤ c && c ≤ 0x39 then BitVec.ofNat 32 (c.toNat - 0x30)
  else if 0x61 ≤ c && c ≤ 0x66 then BitVec.ofNat 32 (c.toNat - 0x61 + 10)
  else if 0x41 ≤ c && c ≤ 0x46 then BitVec.ofNat 32 (c.toNat - 0x41 + 10)
  else BitVec.allOnes 32

/-- The low byte of an `int`. -/
def lowByte (v : BitVec 32) : Byte := UInt8.ofNat v.toNat

def utf8Encode (codepoint : BitVec 32) : Bytes :=
  let six (k : ℕ) : BitVec 32 := (codepoint.sshiftRight k) &&& 0x3f
  if codepoint.slt 0x80 then [lowByte codepoint]
  else if codepoint.slt 0x800 then
    [lowByte (0xc0 ||| codepoint.sshiftRight 6), lowByte (0x80 ||| six 0)]
  else if codepoint.slt 0x10000 then
    [lowByte (0xe0 ||| codepoint.sshiftRight 12), lowByte (0x80 ||| six 6),
      lowByte (0x80 ||| six 0)]
  else
    [lowByte (0xf0 ||| codepoint.sshiftRight 18), lowByte (0x80 ||| six 12),
      lowByte (0x80 ||| six 6), lowByte (0x80 ||| six 0)]

/-- The value of a run of hexadecimal digits, as an `int`. -/
def hexRun (digits : Bytes) : BitVec 32 :=
  digits.foldl (fun val c => (val <<< 4) ||| hexVal c) 0

/-- The value of a run of octal digits, as an `int`. -/
def octRun (digits : Bytes) : BitVec 32 :=
  digits.foldl (fun val c => (val <<< 3) ||| BitVec.ofNat 32 (c.toNat - 0x30)) 0

def clampCodepoint (val : BitVec 32) : BitVec 32 :=
  let v : BitVec 32 := if BitVec.slt 0x10ffff val then 0xfffd else val
  if BitVec.sle 0xd800 v && v.sle 0xdfff then 0xfffd else v

/-- The bytes an escape sequence stands for. -/
def escapeBytes (zEsc : Bytes) : Bytes :=
  match zEsc with
  | _ :: e :: digits =>
    if e == 0x61 then [0x07]
    else if e == 0x62 then [0x08]
    else if e == 0x66 then [0x0c]
    else if e == 0x6e then [0x0a]
    else if e == 0x72 then [0x0d]
    else if e == 0x74 then [0x09]
    else if e == 0x76 then [0x0b]
    else if e == chBackslash then [chBackslash]
    else if e == chNewline then [chSpace]
    else if e == 0x78 then [lowByte (hexRun digits)]
    else if e == 0x75 || e == 0x55 then utf8Encode (clampCodepoint (hexRun digits))
    else if isOctDig e then [lowByte (octRun (e :: digits))]
    else [e]
  | _ => [chBackslash]

/-- `th8SubstEscape`: every branch ends in one append to the buffer. -/
def substEscape (pOutput : Buffer Byte) (zEsc : Bytes) : Buffer Byte :=
  bufWrite 1 pOutput (escapeBytes zEsc) Tags.clean

/-! ## The word itself -/

/-- The inside of a brace-delimited word: copied as it stands, except that a
backslash-newline with the blanks after it becomes one space. -/
def substBraced : Bool → Bytes → Buffer Byte → Buffer Byte
  | _, [], output => output
  | inCont, c :: rest, output =>
    if inCont && (c == chSpace || c == chTab) then substBraced true rest output
    else if c == chBackslash then
      match rest with
      | [] => bufAddChar output c
      | d :: rest' =>
        if d == chNewline then substBraced true rest' (bufAddChar output chSpace)
        else substBraced false (d :: rest') (bufAddChar output c)
    else substBraced false rest (bufAddChar output c)

/-- `th8SubstVarName`: the value of the variable reference `zWord`.  The index of
an array reference is substituted by `subst` first. -/
def substVarName {σ : Type} (env : Env σ)
    (subst : σ → Bytes → Except Failure (TString × σ)) (s : σ) (zWord : Bytes) :
    Except Failure (TString × σ) :=
  match zWord with
  | _ :: zName =>
    if zName.head? == some chOpenBrace then do
      let v ← env.getVar s (.plain ((zWord.drop 2).take (zWord.length - 3)))
      return (v, s)
    else
      let i := (zName.takeWhile (· != chOpenParen)).length
      if i < zName.length && zName.getLast? == some chCloseParen then do
        let nIdx := zName.length - i - 2
        let (res, s') ← subst s ((zName.drop (i + 1)).take nIdx)
        let zFull := zName.take i ++ [chOpenParen] ++ res.bytes ++ [chCloseParen]
        let v ← env.getVar s' ⟨zFull, res.tags⟩
        return (v, s')
      else do
        let v ← env.getVar s (.plain zName)
        return (v, s)
  | [] => .error .silent

/-- The substitution loop of `th8SubstWord` over the bytes that are left of the
word.  The first argument bounds the number of rounds; a round reads at least one
byte. -/
def substChars {σ : Type} (env : Env σ) (subst : σ → Bytes → Except Failure (TString × σ)) :
    ℕ → σ → Bytes → Buffer Byte → Except Failure (Buffer Byte × σ)
  | _, s, [], output => .ok (output, s)
  | 0, _, _ :: _, _ => .error .silent
  | fuel + 1, s, c :: rest, output =>
    let z := c :: rest
    if c == chBackslash then do
      let nEsc ← nextEscape z
      substChars env subst fuel s (z.drop nEsc) (substEscape output (z.take nEsc))
    else if c == chOpenBracket then do
      let nCmd ← nextCommand z
      let (res, s') ← env.eval s ((z.drop 1).take (nCmd - 2))
      substChars env subst fuel s' (z.drop nCmd) (bufWrite 1 output res.bytes res.tags)
    else if c == chDollar then do
      let nVar ← nextVarName z
      if nVar ≤ 1 then
        substChars env subst fuel s rest (bufAddChar output chDollar)
      else do
        let (res, s') ← substVarName env subst s (z.take nVar)
        substChars env subst fuel s' (z.drop nVar) (bufWrite 1 output res.bytes res.tags)
    else substChars env subst fuel s rest (bufAddChar output c)

def isBraced (z : Bytes) : Bool :=
  1 < z.length && z.head? == some chOpenBrace && z.getLast? == some chCloseBrace

def isQuoted (z : Bytes) : Bool :=
  1 < z.length && z.head? == some chQuote && z.getLast? == some chQuote

def inner (z : Bytes) : Bytes := (z.drop 1).take (z.length - 2)

/-- `Th8_SetResult` of a buffer: the buffer pointer is null as long as nothing
was written, and a null pointer clears the result, tags included. -/
def setResult (output : Buffer Byte) : TString :=
  match output.zBuf with
  | [] => ⟨[], Tags.clean⟩
  | z => ⟨z, output.nTag⟩

/-- The buffer `th8SubstWord` has filled when it reaches label `done`. -/
def substOutput {σ : Type} (env : Env σ)
    (subst : σ → Bytes → Except Failure (TString × σ)) (s : σ) (zWord : Bytes) :
    Except Failure (Buffer Byte × σ) :=
  if isBraced zWord then .ok (substBraced false (inner zWord) bufInit, s)
  else if isQuoted zWord then
    substChars env subst zWord.length s (inner zWord) bufInit
  else substChars env subst zWord.length s zWord bufInit

/-- `th8SubstWord`.  The first argument bounds the nesting of array indices; an
index is shorter than the word it is in. -/
def substWord {σ : Type} (env : Env σ) :
    ℕ → σ → Bytes → Except Failure (TString × σ)
  | 0, _, _ => .error .silent
  | fuel + 1, s, zWord => do
    let (output, s') ← substOutput env (substWord env fuel) s zWord
    if output.bFail then .error (.static "out of memory")
    else return (setResult output, s')

/-- What `th8CheckExpansionPrefix` reports of a word that is not malformed: the
length of the tag and the operator registered for it, when there is one. -/
abbrev Expansion := Option (ℕ × ExpansionProc)

def isTagByte (c : Byte) : Bool :=
  isAlnum c || c == chUnderscore || c == chStar

def checkExpansionPrefix {σ : Type} (env : Env σ) (s : σ) (zInput : Bytes) :
    Except Failure Expansion :=
  if 2 < zInput.length && zInput.head? == some chOpenBrace then
    let zTag := (zInput.drop 1).takeWhile isTagByte
    match zInput.drop (zTag.length + 1) with
    | c :: _ :: _ =>
      if c == chCloseBrace then
        match zTag with
        | [] => .error (.static "extra characters after close-brace")
        | _ :: _ =>
          match env.findExpansion s zTag with
          | some xExpand => .ok (some (zTag.length, xExpand))
          | none => .error (.message "unknown expansion operator:" zTag)
      else .ok none
    | _ => .ok none
  else .ok none

/-- `th8BuiltinExpand`, which is `Th8_SplitList`: the tags of the list go to
every element.  The list parser works on the raw bytes and is a parameter. -/
def builtinExpand (splitList : Bytes → Except Failure (List Bytes)) :
    ExpansionProc := fun input =>
  match input.bytes with
  | [] => .ok []
  | z => (splitList z).map fun elements => elements.map fun e => ⟨e, input.tags⟩

/-! ## The bounds on rounds and nesting are never reached -/

section Bounds

open Support

variable {σ : Type} {env : Env σ}

variable {f g : σ → Bytes → Except Failure (TString × σ)} {zWord : Bytes}

theorem substVarName_congr (s : σ) (hfg : ∀ t idx, idx.length < zWord.length → f t idx = g t idx) :
    substVarName env f s zWord = substVarName env g s zWord := by
  cases zWord with
  | nil => rfl
  | cons c zName =>
    unfold substVarName
    simp only
    split_ifs with hbrace hindex
    · rfl
    · rw [hfg]
      simp only [length_take, length_drop, length_cons]
      omega
    · rfl

theorem substChars_congr {m n : ℕ} {z : Bytes} (s : σ) (output : Buffer Byte) (hm : z.length ≤ m)
    (hn : z.length ≤ n) (hfg : ∀ t idx, idx.length < z.length → f t idx = g t idx) :
    substChars env f m s z output = substChars env g n s z output := by
  induction m generalizing n z s output with
  | zero =>
    have hnil : z = [] := eq_nil_of_length_eq_zero (by omega)
    subst hnil
    simp [substChars]
  | succ m ih =>
    cases z with
    | nil => simp [substChars]
    | cons c rest =>
      cases n with
      | zero => simp at hn
      | succ n =>
        have step : ∀ (k : ℕ) (t : σ) (b : Buffer Byte), 0 < k →
            substChars env f m t ((c :: rest).drop k) b =
              substChars env g n t ((c :: rest).drop k) b := by
          intro k t b hk
          have hlen : ((c :: rest).drop k).length ≤ rest.length := by
            simp only [length_drop, length_cons]
            omega
          simp only [length_cons] at hm hn
          refine ih t b (by omega) (by omega) ?_
          intro u idx hidx
          exact hfg u idx (by simp only [length_cons]; omega)
        have hvar : ∀ (k : ℕ) (t : σ),
            substVarName env f t ((c :: rest).take k) =
              substVarName env g t ((c :: rest).take k) := by
          intro k t
          refine substVarName_congr t fun u idx hidx => hfg u idx ?_
          exact Nat.lt_of_lt_of_le hidx (length_take_le' _ _)
        unfold substChars
        simp only
        split_ifs
        · cases hesc : nextEscape (c :: rest) with
          | error e => rfl
          | ok k => simpa using step k s _ (nextEscape_pos hesc)
        · cases hcmd : nextCommand (c :: rest) with
          | error e => rfl
          | ok k =>
            simp only [ok_bind]
            congr 1
            funext r
            exact step k r.2 _ (nextCommand_pos hcmd)
        · cases hname : nextVarName (c :: rest) with
          | error e => rfl
          | ok k =>
            simp only [ok_bind]
            split_ifs
            · simpa using step 1 s (bufAddChar output chDollar) Nat.one_pos
            · rw [hvar]
              congr 1
              funext r
              exact step k r.2 _ (nextVarName_pos hname)
        · simpa using step 1 s (bufAddChar output c) Nat.one_pos

theorem inner_length_le (z : Bytes) : (inner z).length ≤ z.length := by
  unfold inner
  simp only [length_take, length_drop]
  omega

theorem substOutput_congr (s : σ) (hfg : ∀ t idx, idx.length < zWord.length → f t idx = g t idx) :
    substOutput env f s zWord = substOutput env g s zWord := by
  have hchars : ∀ z : Bytes, z.length ≤ zWord.length →
      substChars env f zWord.length s z bufInit = substChars env g zWord.length s z bufInit := by
    intro z hz
    refine substChars_congr s bufInit hz hz fun t idx hidx => ?_
    exact hfg t idx (by omega)
  unfold substOutput
  rw [hchars _ (inner_length_le zWord), hchars _ (Nat.le_refl _)]

theorem substWord_fuel {m n : ℕ} (s : σ) (hm : zWord.length < m) (hn : zWord.length < n) :
    substWord env m s zWord = substWord env n s zWord := by
  induction m generalizing n zWord s with
  | zero => omega
  | succ m ih =>
    cases n with
    | zero => omega
    | succ n =>
      have hout : substOutput env (substWord env m) s zWord =
          substOutput env (substWord env n) s zWord :=
        substOutput_congr s fun t idx hidx => ih t (by omega) (by omega)
      unfold substWord
      rw [hout]

end Bounds

/-! ## Without brackets the interpreter state is left alone -/

section State

open Support

variable {σ : Type} {env : Env σ}

variable {f : σ → Bytes → Except Failure (TString × σ)} {s s' : σ} {zWord : Bytes}

theorem substVarName_state {v : TString} (hbracket : chOpenBracket ∉ zWord)
    (hf : ∀ t t' idx w, chOpenBracket ∉ idx → f t idx = .ok (w, t') → t' = t)
    (h : substVarName env f s zWord = .ok (v, s')) : s' = s := by
  cases zWord with
  | nil => cases h
  | cons c zName =>
    unfold substVarName at h
    simp only at h
    split_ifs at h
    · obtain ⟨w, -, hw⟩ := bind_eq_ok.mp h
      cases hw
      rfl
    · obtain ⟨⟨w, t⟩, hidx, hw⟩ := bind_eq_ok.mp h
      obtain ⟨w', -, hw'⟩ := bind_eq_ok.mp hw
      cases hw'
      refine hf _ _ _ _ (fun hmem => hbracket ?_) hidx
      exact mem_cons_of_mem _ (mem_of_mem_drop (mem_of_mem_take hmem))
    · obtain ⟨w, -, hw⟩ := bind_eq_ok.mp h
      cases hw
      rfl

theorem substChars_state {n : ℕ} {z : Bytes} {output output' : Buffer Byte}
    (hbracket : chOpenBracket ∉ z)
    (hf : ∀ t t' idx w, chOpenBracket ∉ idx → f t idx = .ok (w, t') → t' = t)
    (h : substChars env f n s z output = .ok (output', s')) : s' = s := by
  induction n generalizing s z output with
  | zero =>
    cases z with
    | nil =>
      simp only [substChars, Except.ok.injEq, Prod.mk.injEq] at h
      exact h.2.symm
    | cons c rest => simp [substChars] at h
  | succ n ih =>
    cases z with
    | nil =>
      simp only [substChars, Except.ok.injEq, Prod.mk.injEq] at h
      exact h.2.symm
    | cons c rest =>
      have hdrop : ∀ k, chOpenBracket ∉ (c :: rest).drop k := fun k hmem =>
        hbracket (mem_of_mem_drop hmem)
      unfold substChars at h
      simp only at h
      split_ifs at h with hesc hopen hdollar
      · obtain ⟨k, -, hk⟩ := bind_eq_ok.mp h
        exact ih (hdrop k) hk
      · have hc : c = chOpenBracket := by simpa using hopen
        exact absurd (hc ▸ mem_cons_self) hbracket
      · obtain ⟨k, -, hk⟩ := bind_eq_ok.mp h
        split_ifs at hk
        · exact ih (hdrop 1) hk
        · obtain ⟨⟨w, t⟩, hvar, hw⟩ := bind_eq_ok.mp hk
          have ht : t = s := by
            refine substVarName_state (fun hmem => hbracket ?_) hf hvar
            exact mem_of_mem_take hmem
          subst ht
          exact ih (hdrop k) hw
      · exact ih (hdrop 1) h

theorem inner_not_mem {z : Bytes} (h : chOpenBracket ∉ z) :
    chOpenBracket ∉ inner z := fun hmem =>
  h (mem_of_mem_drop (mem_of_mem_take hmem))

theorem substOutput_state {output : Buffer Byte} (hbracket : chOpenBracket ∉ zWord)
    (hf : ∀ t t' idx w, chOpenBracket ∉ idx → f t idx = .ok (w, t') → t' = t)
    (h : substOutput env f s zWord = .ok (output, s')) : s' = s := by
  unfold substOutput at h
  split_ifs at h
  · cases h
    rfl
  · exact substChars_state (inner_not_mem hbracket) hf h
  · exact substChars_state hbracket hf h

theorem substWord_state {n : ℕ} {v : TString} (hbracket : chOpenBracket ∉ zWord)
    (h : substWord env n s zWord = .ok (v, s')) : s' = s := by
  induction n generalizing s s' zWord v with
  | zero => simp [substWord] at h
  | succ n ih =>
    have hf : ∀ t t' idx w, chOpenBracket ∉ idx → substWord env n t idx = .ok (w, t') → t' = t := by
      intro t t' idx w hidx hw
      exact ih hidx hw
    obtain ⟨⟨output, t⟩, hout, hrest⟩ := bind_eq_ok.mp h
    have hstate : t = s := substOutput_state hbracket hf hout
    simp only at hrest
    split_ifs at hrest
    cases hrest
    exact hstate

end State

end Th8
